import BitUnroll.Failure
import BitUnroll.System.Basic

/-!
# Elaborating types and expressions

The reading of trees as types and as typed expressions over the variables of a transition system.
An expression's operands are read before its operator is looked at, from the left, and a plain
number takes the type of the operand beside it where that type has bits.

## Main definitions

* `Scope`: the named types and the transition system whose variables may be used.
* `Scope.type`, `Scope.expr`: the two readers.
-/

namespace BitUnroll

/-- Results of reading a script. -/
abbrev Elab := Except Failure

namespace Elab

variable {α : Type}

/-- Refuses a command. -/
def refuse (e : ScriptError) : Elab α := .error (.of (.script e))

/-- Adds a context to a failure. -/
def within (context : FailureContext) : Elab α → Elab α
  | .ok a => .ok a
  | .error f => .error (f.within context)

/-- The name that a leaf is. -/
def atom : SExpr → Elab String
  | .atom name => .ok name
  | s => refuse (.expectedAtom s)

/-- The count that a text is. -/
def count (context : FailureContext) (text : String) : Elab Nat :=
  match Text.readNat Text.countLimit text with
  | .ok n => .ok n
  | .error e => .error ⟨[context], .numeral e⟩

/-- The timeframe that a leaf is. -/
def timeframe (s : SExpr) : Elab Nat := do
  count (.timeframe s) (← atom s)

/-- The number that an expression is. -/
def constant (e : Expr) : Elab Int :=
  match e.toInteger? with
  | some n => .ok n
  | none => refuse (.notConstant e)

end Elab

/-- What names in a command refer to. -/
structure Scope where
  types : TypeTable
  system : TransitionSystem

namespace Scope

open Elab (refuse atom)

/-! ## Types -/

/-- The type of words with a constructor's name. -/
def wordType (width : Nat) : String → Elab Ty
  | "unsigned" => .ok (.unsigned width)
  | "signed" => .ok (.signed width)
  | "bv" => .ok (.plain width)
  | other => refuse (.unknownTypeConstructor other)

/-- The type that a tree is. -/
def type (scope : Scope) (s : SExpr) : Elab Ty :=
  match s with
  | .atom "bool" => .ok .bool
  | .atom "integer" => .ok .integer
  | .atom "natural" => .ok .natural
  | .atom name =>
    if (scope.types.lookup? name).isSome then .ok (.named name) else refuse (.unknownType name)
  | .list [kind, width] => do
    let width ← Elab.count (.typeWidth s) (← atom width)
    if width = 0 then refuse (.zeroWidthType s)
    wordType width (← atom kind)
  | .list _ => refuse (.malformedType s)

/-! ## Expressions -/

/-- The expression that a leaf is: a truth value, a number, or else a declared variable. -/
def leaf (scope : Scope) (name : String) : Elab Expr :=
  if name = "true" then .ok (.truth true)
  else if name = "false" then .ok (.truth false)
  else match Text.readInt? Text.intLimit name with
    | some n => .ok (.constant n .integer)
    | none =>
      match scope.system.var? name with
      | some ty => .ok (.symbol name ty)
      | none => refuse (.unknownSymbol name)

/-- An expression beside another one: a plain number takes the other one's type, where that has
bits. -/
def retype (scope : Scope) (e other : Expr) : Expr :=
  match e.kind with
  | .constant n =>
    if e.ty = .integer ∧ 0 < scope.types.width other.ty then .constant n other.ty else e
  | _ => e

/-- Two expressions beside each other, the left one retyped first. -/
def unify (scope : Scope) (a b : Expr) : Expr × Expr :=
  let a := scope.retype a b
  (a, scope.retype b a)

/-- The operator on two words that a name stands for. -/
def wordOp? : String → Option WordOp
  | "&" => some .and
  | "|" => some .or
  | "^" => some .xor
  | "+" => some .add
  | "-" => some .sub
  | "*" => some .mul
  | _ => none

/-- The relation that a name stands for. -/
def relation? : String → Option Relation
  | "<" => some .lt
  | "<=" => some .le
  | ">" => some .gt
  | ">=" => some .ge
  | _ => none

/-- The operator on two truth values that a name stands for. -/
def binaryTruth? : String → Option Kind
  | "=>" => some .implies
  | "|->" => some (.temporal .overlapped)
  | "|=>" => some (.temporal .nonOverlapped)
  | ";;" => some (.temporal .concat)
  | _ => none

/-- The value of a variable in the next timeframe. -/
def next (e : Expr) : Elab Expr :=
  match e.identifier? with
  | some name => .ok (.nextSymbol name e.ty)
  | none => refuse .notAVariable

/-- Adjacent bits of a word. The number of bits is that of the two bounds, whatever the word; it
wraps around where a hundred and twenty-eight bits do not hold it. -/
def extract (a upper lower : Expr) : Elab Expr := do
  let high ← Elab.constant upper
  let low ← Elab.constant lower
  if high < low then refuse (.reversedBounds high low)
  let width := (high - low + 1).bmod (2 * Text.intLimit)
  if width < 0 then refuse .widthTooSmall
  if Text.countLimit ≤ width then refuse .widthTooLarge
  return .node .extractBits (.unsigned width.toNat) [a, upper, lower]

/-- An operator with a name on two operands. -/
def binary (scope : Scope) (head : String) (a b : Expr) : Elab Expr :=
  match wordOp? head, relation? head, binaryTruth? head with
  | some op, _, _ =>
    let (a, b) := scope.unify a b
    .ok (.node (.binary op) a.ty [a, b])
  | _, some op, _ =>
    let (a, b) := scope.unify a b
    .ok (.node (.relation op) .bool [a, b])
  | _, _, some kind => .ok (.node kind .bool [a, b])
  | _, _, _ =>
    match head with
    | "=" =>
      let (a, b) := scope.unify a b
      .ok (.node (.equality false) .bool [a, b])
    | "!=" =>
      let (a, b) := scope.unify a b
      .ok (.node (.equality true) .bool [a, b])
    | "bit" => .ok (.node .extractBit .bool [a, b])
    | "##" => .ok (.node (.temporal .delay) .bool [a, .absent, b])
    | _ => refuse (.unknownOperator head 2)

/-- An operator with a name on one operand. -/
def unary (head : String) (a : Expr) : Elab Expr :=
  match head with
  | "next" => next a
  | "not" => .ok (.node .not .bool [a])
  | "~" => .ok (.node .complement a.ty [a])
  | "-" => .ok (.node .negate a.ty [a])
  | _ => refuse (.unknownOperator head 1)

/-- An operator with a name on three operands. -/
def ternary (scope : Scope) (head : String) (a b c : Expr) : Elab Expr :=
  match head with
  | "ite" =>
    let (b, c) := scope.unify b c
    .ok (.node .ite b.ty [a, b, c])
  | "extract" => extract a b c
  | "##" => .ok (.node (.temporal .delay) .bool [a, b, c])
  | _ => refuse (.unknownOperator head 3)

/-- An operator with a name on operands. Connectives take any number of them and concatenation
takes at least one; the sum of its widths wraps around at sixty-four bits. -/
def operator (scope : Scope) (head : String) (ops : List Expr) : Elab Expr :=
  match head, ops with
  | "and", ops => .ok (.node (.connective .and) .bool ops)
  | "or", ops => .ok (.node (.connective .or) .bool ops)
  | "xor", ops => .ok (.node (.connective .xor) .bool ops)
  | "concat", a :: rest =>
    let width := (a :: rest).foldl (fun total e => total + scope.types.width e.ty) 0
    .ok (.node .concat (.unsigned (width % Text.countLimit)) (a :: rest))
  | head, [a] => unary head a
  | head, [a, b] => scope.binary head a b
  | head, [a, b, c] => scope.ternary head a b c
  | head, ops => refuse (.unknownOperator head ops.length)

mutual

/-- The expression that a tree is. -/
def expr (scope : Scope) : SExpr → Elab Expr
  | .atom name => scope.leaf name
  | .list [] => refuse .emptyExpression
  | .list (head :: args) => do
    let head ← atom head
    scope.operator head (← exprs scope args)

/-- The expressions that trees are, from the left. -/
def exprs (scope : Scope) : List SExpr → Elab (List Expr)
  | [] => .ok []
  | s :: rest => do
    let e ← expr scope s
    return e :: (← exprs scope rest)

end

/-- The Boolean expression that a tree is. -/
def boolExpr (scope : Scope) (s : SExpr) : Elab Expr := do
  let e ← scope.expr s
  if scope.types.isBool e.ty then return e else refuse (.notBoolean e)

end Scope

end BitUnroll
