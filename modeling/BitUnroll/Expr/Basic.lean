import BitUnroll.Types

/-!
# Expressions

Expressions over the state variables of a transition system: truth values and words, their
operators, and operators that look at later timeframes. A node has a kind, a type and operands,
and neither the type nor the number of operands is tied to the kind; what a shape means, if
anything, is up to whoever reads it.

## Main definitions

* `Kind`: the operators and leaves.
* `Expr`: the trees, with an induction principle over operands, `Expr.induction`.
* `Expr.Subterm`: the nodes of a tree.
* `Expr.Shaped`: the type and the operands of each node fit its kind, as lowering wants them.
-/

namespace BitUnroll

/-- The operators that join any number of truth values. -/
inductive Connective where
  | and
  | or
  | xor
  deriving DecidableEq, Repr

/-- The operators that join two words of one width. -/
inductive WordOp where
  | and
  | or
  | xor
  | add
  | sub
  | mul
  deriving DecidableEq, Repr

/-- The order relations on words. -/
inductive Relation where
  | lt
  | le
  | gt
  | ge
  deriving DecidableEq, Repr

/-- The operators on sequences of timeframes. -/
inductive Temporal where
  | overlapped
  | nonOverlapped
  | delay
  | concat
  deriving DecidableEq, Repr

/-- What a node of an expression is. -/
inductive Kind where
  /-- A state variable in the current timeframe. -/
  | symbol (name : String)
  /-- A state variable in the next timeframe. -/
  | nextSymbol (name : String)
  | constant (value : Int)
  | truth (value : Bool)
  /-- No expression, where one may be left out. -/
  | nil
  | not
  | connective (op : Connective)
  | implies
  | equality (negated : Bool)
  | ite
  | complement
  | negate
  | binary (op : WordOp)
  | relation (op : Relation)
  /-- One bit of a word: the word and the bit's number. -/
  | extractBit
  /-- Adjacent bits of a word: the word, the last bit's number and the first bit's number. -/
  | extractBits
  /-- Words in a row, the most significant first. -/
  | concat
  | cast
  | temporal (op : Temporal)
  deriving DecidableEq, Repr

/-- The name of a kind in texts. -/
def Kind.id : Kind → String
  | .symbol _ => "symbol"
  | .nextSymbol _ => "next_symbol"
  | .constant _ => "constant"
  | .truth true => "true"
  | .truth false => "false"
  | .nil => "nil"
  | .not => "not"
  | .connective .and => "and"
  | .connective .or => "or"
  | .connective .xor => "xor"
  | .implies => "=>"
  | .equality false => "="
  | .equality true => "notequal"
  | .ite => "if"
  | .complement => "bitnot"
  | .negate => "unary-"
  | .binary .and => "bitand"
  | .binary .or => "bitor"
  | .binary .xor => "bitxor"
  | .binary .add => "+"
  | .binary .sub => "-"
  | .binary .mul => "*"
  | .relation .lt => "<"
  | .relation .le => "<="
  | .relation .gt => ">"
  | .relation .ge => ">="
  | .extractBit => "extractbit"
  | .extractBits => "extractbits"
  | .concat => "concatenation"
  | .cast => "typecast"
  | .temporal .overlapped => "overlapped_implication"
  | .temporal .nonOverlapped => "non_overlapped_implication"
  | .temporal .delay => "sva_cycle_delay"
  | .temporal .concat => "sva_sequence_concatenation"

/-- Whether a kind of node gives a word by nature. -/
def Kind.isWord : Kind → Bool
  | .symbol _ | .nextSymbol _ | .constant _ | .complement | .negate | .binary _ | .extractBits
  | .concat | .cast => true
  | _ => false

/-- A kind of node that stands for itself, whatever operands it has. -/
def Kind.isLeaf : Kind → Bool
  | .symbol _ | .nextSymbol _ | .constant _ | .truth _ | .nil => true
  | _ => false

/-- A tree of kinds with types. -/
inductive Expr where
  | node (kind : Kind) (ty : Ty) (operands : List Expr)
  deriving Repr

namespace Expr

instance : Inhabited Expr := ⟨.node .nil .empty []⟩

/-- What the topmost node is. -/
def kind : Expr → Kind
  | .node kind _ _ => kind

/-- The type of the topmost node. -/
def ty : Expr → Ty
  | .node _ ty _ => ty

/-- The operands of the topmost node. -/
def operands : Expr → List Expr
  | .node _ _ operands => operands

@[simp] theorem kind_node (k : Kind) (t : Ty) (os : List Expr) : (node k t os).kind = k := rfl

@[simp] theorem ty_node (k : Kind) (t : Ty) (os : List Expr) : (node k t os).ty = t := rfl

@[simp] theorem operands_node (k : Kind) (t : Ty) (os : List Expr) :
    (node k t os).operands = os := rfl

/-- What holds of a node whenever it holds of its operands holds of all expressions. -/
@[elab_as_elim] theorem induction {motive : Expr → Prop}
    (node : ∀ kind ty operands, (∀ e ∈ operands, motive e) → motive (.node kind ty operands))
    (e : Expr) : motive e :=
  Expr.rec (motive_2 := fun es => ∀ e ∈ es, motive e) node
    (fun _ h => absurd h List.not_mem_nil)
    (fun _ _ head tail _ h => (List.mem_cons.1 h).elim (fun he => he ▸ head) (tail _)) e

/-- A node of an expression: the expression itself, or a node of one of its operands. -/
inductive Subterm (x : Expr) : Expr → Prop
  | self : Subterm x x
  | operand {a : Expr} {kind : Kind} {ty : Ty} {es : List Expr} (ha : a ∈ es) (h : Subterm x a) :
      Subterm x (.node kind ty es)

/-- The nodes of a node are the node itself and those of its operands. -/
theorem forall_subterm_node {p : Expr → Prop} {kind : Kind} {ty : Ty} {es : List Expr} :
    (∀ x, Subterm x (.node kind ty es) → p x) ↔
      p (.node kind ty es) ∧ ∀ e ∈ es, ∀ x, Subterm x e → p x := by
  constructor
  · intro h
    exact ⟨h _ .self, fun e he x hx => h x (.operand he hx)⟩
  · rintro ⟨hself, hes⟩ x hx
    cases hx with
    | self => exact hself
    | operand he hx => exact hes _ he x hx

/-! ## Common shapes -/

/-- A state variable in the current timeframe. -/
def symbol (name : String) (ty : Ty) : Expr := .node (.symbol name) ty []

/-- A state variable in the next timeframe. -/
def nextSymbol (name : String) (ty : Ty) : Expr := .node (.nextSymbol name) ty []

/-- A number of a type. -/
def constant (value : Int) (ty : Ty) : Expr := .node (.constant value) ty []

/-- A truth value. -/
def truth (value : Bool) : Expr := .node (.truth value) .bool []

/-- The place of an expression that was left out. -/
def absent : Expr := .node .nil .empty []

/-- The conjunction of expressions. -/
def conjunction (operands : List Expr) : Expr := .node (.connective .and) .bool operands

/-- Whether an expression was left out. -/
def isNil (e : Expr) : Bool := e.kind == .nil

/-- The name of a state variable, in either timeframe. -/
def identifier? (e : Expr) : Option String :=
  match e.kind with
  | .symbol name | .nextSymbol name => some name
  | _ => none

/-- The number that a constant stands for, where true is one and false is zero. -/
def toInteger? (e : Expr) : Option Int :=
  match e.kind with
  | .constant value => some value
  | .truth value => some value.toInt
  | _ => none

/-! ## Text -/

mutual

/-- The text of an expression: a leaf's name or number, or the operator and the operands in
parentheses. -/
def render : Expr → String
  | .node (.symbol name) _ _ => name
  | .node (.nextSymbol name) _ _ => "next(" ++ name ++ ")"
  | .node (.constant value) _ _ => toString value
  | .node kind _ [] => kind.id
  | .node kind _ (e :: es) => "(" ++ kind.id ++ renderOperands (e :: es) ++ ")"

/-- The texts of operands, each after a space. -/
def renderOperands : List Expr → String
  | [] => ""
  | e :: es => " " ++ render e ++ renderOperands es

end

end Expr

/-! ## Shapes -/

/-- A type and operands that fit a kind of node: the number of operands is the one that is wanted,
and where the width of a result is that of an operand, the type is that operand's type. For other
words the width is checked, or is made that of the type. -/
def Kind.Shapes (kind : Kind) (ty : Ty) (es : List Expr) : Prop :=
  match kind with
  | .not | .cast => ∃ a, es = [a]
  | .complement | .negate => ∃ a, es = [a] ∧ ty = a.ty
  | .implies | .equality _ | .binary _ | .relation _ | .extractBit => ∃ a b, es = [a, b]
  | .ite => ∃ c a b, es = [c, a, b] ∧ ty = a.ty
  | .extractBits => ∃ a last first, es = [a, last, first]
  | _ => True

namespace Expr

/-- All nodes of an expression have a type and operands that fit their kind. -/
def Shaped (e : Expr) : Prop := ∀ x, Subterm x e → x.kind.Shapes x.ty x.operands

theorem shaped_node {kind : Kind} {ty : Ty} {es : List Expr} :
    (node kind ty es).Shaped ↔ kind.Shapes ty es ∧ ∀ e ∈ es, e.Shaped :=
  forall_subterm_node

theorem Subterm.trans {x y z : Expr} (h : Subterm x y) (h' : Subterm y z) : Subterm x z := by
  induction h' with
  | self => exact h
  | operand ha _ ih => exact .operand ha ih

theorem Shaped.subterm {x e : Expr} (he : e.Shaped) (hx : Subterm x e) : x.Shaped :=
  fun y hy => he y (hy.trans hx)

end Expr

end BitUnroll
