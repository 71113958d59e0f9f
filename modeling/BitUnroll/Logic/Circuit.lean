import BitUnroll.Logic.Cnf
import Std.Data.TreeMap

/-!
# Circuits as formulas

A circuit is a formula that grows: each gate takes a fresh variable and adds the clauses that
define it. Two optimisations can be switched off: folding a gate that has a constant, repeated or
opposite operand, and sharing one output among gates of the same kind on the same operands.
Operations only ever add variables and clauses, and the order in which they do is fixed.

## Main definitions

* `Circuit`: the formula, the gates to be shared and the switches.
* `Build`: computations that extend a circuit.
* `Circuit.and`, `Circuit.xor`: the two gates that have clauses of their own; the others are made
  from them.
* `Circuit.require`: adds a unit clause.
-/

namespace BitUnroll

/-- The optimisations of a circuit. -/
structure GateOptions where
  constProp : Bool := true
  gateSharing : Bool := true
  deriving DecidableEq, Repr

/-- The gates that have defining clauses. -/
inductive GateOp where
  | and
  | xor
  deriving DecidableEq, Repr

namespace GateOp

/-- The truth function of a gate. -/
def eval : GateOp → Bool → Bool → Bool
  | .and, a, b => a && b
  | .xor, a, b => a ^^ b

/-- The clauses that make `out` the output of a gate. -/
def define (op : GateOp) (out a b : Literal) : List Clause :=
  match op with
  | .and => [[-out, a], [-out, b], [-a, -b, out]]
  | .xor => [[-out, a, b], [-out, -a, -b], [out, -a, b], [out, a, -b]]

/-- The literal that a gate reduces to without a variable of its own, if there is one. -/
def fold? (op : GateOp) (a b : Literal) : Option Literal :=
  match op with
  | .and =>
    if a = .bottom ∨ b = .bottom ∨ a = -b then some .bottom
    else if a = .top ∨ a = b then some b
    else if b = .top then some a
    else none
  | .xor =>
    if a = .bottom then some b
    else if b = .bottom then some a
    else if a = .top then some (-b)
    else if b = .top then some (-a)
    else if a = b then some .bottom
    else if a = -b then some .top
    else none

/-- The number of a gate in the order of gate keys. -/
def code : GateOp → Nat
  | .and => 0
  | .xor => 1

/-- The clauses of a gate say that its output is its truth function. -/
theorem eval_define (op : GateOp) (out a b : Literal) (v : Valuation) :
    (op.define out a b).all (Clause.eval · v) = (out.eval v == op.eval (a.eval v) (b.eval v)) := by
  cases op <;> simp only [define, eval, Clause.eval, List.all_cons, List.any_cons, List.all_nil,
    List.any_nil, Literal.eval_neg] <;>
    cases out.eval v <;> cases a.eval v <;> cases b.eval v <;> rfl

/-- A folded gate has the value of its truth function wherever the constant is true. -/
theorem eval_of_fold? {op : GateOp} {a b l : Literal} (h : op.fold? a b = some l)
    {v : Valuation} (hv : v 0 = true) : l.eval v = op.eval (a.eval v) (b.eval v) := by
  have htop : Literal.top.eval v = true := by simp [Literal.eval, Literal.top, hv]
  have hbottom : Literal.bottom.eval v = false := by simp [Literal.eval, Literal.bottom, hv]
  cases op <;> simp only [fold?] at h <;> split at h <;> grind [eval, Literal.eval_neg]

theorem eval_comm (op : GateOp) (p q : Bool) : op.eval p q = op.eval q p := by
  cases op <;> cases p <;> cases q <;> rfl

end GateOp

/-- What identifies a gate: its kind and its operands. -/
structure GateKey where
  op : GateOp
  left : Literal
  right : Literal
  deriving DecidableEq, Repr

namespace GateKey

/-- Gates are ordered by kind, then by the numbers of their operands. -/
def order : GateKey → GateKey → Ordering :=
  compareLex (compareOn fun k => k.op.code)
    (compareLex (compareOn fun k => k.left.code) (compareOn fun k => k.right.code))

instance : Std.TransCmp order :=
  inferInstanceAs (Std.TransCmp (compareLex (compareOn fun k : GateKey => k.op.code)
    (compareLex (compareOn fun k => k.left.code) (compareOn fun k => k.right.code))))

instance : Std.LawfulEqCmp order where
  eq_of_compare {x y} h := by
    obtain ⟨p, a, b⟩ := x
    obtain ⟨q, c, d⟩ := y
    simp only [order, compareLex_eq_eq, compareOn] at h
    obtain ⟨hop, ha, hb⟩ := h
    have hop := Std.LawfulEqOrd.eq_of_compare hop
    have ha := Literal.code_injective (Std.LawfulEqOrd.eq_of_compare ha)
    have hb := Literal.code_injective (Std.LawfulEqOrd.eq_of_compare hb)
    cases p <;> cases q <;> simp_all [GateOp.code]

end GateKey

/-- A formula with the outputs of its shared gates. -/
structure Circuit where
  options : GateOptions
  formula : Cnf
  gates : Std.TreeMap GateKey Literal GateKey.order

/-- Computations that extend a circuit. -/
abbrev Build := StateM Circuit

namespace Circuit

/-- The circuit of one variable, the constant, which its only clause makes true. -/
def initial (options : GateOptions) : Circuit where
  options := options
  formula := { numVars := 1, clauses := #[[.top]] }
  gates := ∅

/-- The output that an equal gate already has, where gates are shared. -/
def shared? (c : Circuit) (key : GateKey) : Option Literal :=
  if c.options.gateSharing then c.gates[key]? else none

/-- A positive literal of a fresh variable. -/
def fresh : Build Literal := fun c =>
  (⟨c.formula.numVars, true⟩, { c with formula := c.formula.newVar.2 })

/-- Adds the unit clause of a literal, true or not. -/
def addUnit (a : Literal) : Build Unit := fun c =>
  ((), { c with formula := c.formula.addClause [a] })

/-- A new gate on the given operands: a fresh output with its clauses, entered for sharing. -/
def defineGate (key : GateKey) : Build Literal := fun c =>
  let out : Literal := ⟨c.formula.numVars, true⟩
  (out,
    { options := c.options
      formula := c.formula.newVar.2.addClauses (key.op.define out key.left key.right)
      gates := if c.options.gateSharing then c.gates.insert key out else c.gates })

/-- A gate on operands that were put in order, shared where possible. -/
def sortedGate (op : GateOp) (operands : Literal × Literal) : Build Literal := fun c =>
  match c.shared? ⟨op, operands.1, operands.2⟩ with
  | some out => (out, c)
  | none => defineGate ⟨op, operands.1, operands.2⟩ c

/-- A gate on any operands, folded or shared where the options allow it. -/
def gate (op : GateOp) (a b : Literal) : Build Literal := fun c =>
  match if c.options.constProp then op.fold? a b else none with
  | some l => (l, c)
  | none => sortedGate op (Literal.sort a b) c

/-- The conjunction of two literals. -/
def and (a b : Literal) : Build Literal := gate .and a b

/-- The exclusive disjunction of two literals. -/
def xor (a b : Literal) : Build Literal := gate .xor a b

/-- The disjunction of two literals, as the negation of a conjunction. -/
def or (a b : Literal) : Build Literal := do
  return -(← and (-a) (-b))

/-- The implication from `a` to `b`. -/
def implies (a b : Literal) : Build Literal := or (-a) b

/-- Whether two literals have one value. -/
def iff (a b : Literal) : Build Literal := do
  return -(← xor a b)

/-- The choice of `a` where the condition is true and of `b` where it is false. -/
def select (condition a b : Literal) : Build Literal := do
  let chosen ← and condition a
  let other ← and (-condition) b
  or chosen other

/-- The conjunction of a list, from the left. -/
def andAll : List Literal → Build Literal
  | [] => return .top
  | first :: rest => rest.foldlM and first

/-- The disjunction of a list, from the left. -/
def orAll : List Literal → Build Literal
  | [] => return .bottom
  | first :: rest => rest.foldlM or first

/-- The exclusive disjunction of a list, from the left and starting with false. -/
def xorAll (ls : List Literal) : Build Literal := ls.foldlM xor .bottom

/-- Makes a literal true in every model. The constant true needs no clause where constants are
folded. -/
def require (a : Literal) : Build Unit := fun c =>
  if c.options.constProp && a == .top then ((), c) else addUnit a c

/-- Makes two literals equal in every model. -/
def requireEqual (a b : Literal) : Build Unit := do
  require (← iff a b)

end Circuit

end BitUnroll
