/-!
# Literals

A literal is a variable or its negation. Variable zero is reserved for the constant true, which
gives the two constant literals. Literals are ordered by variable, the negative one first, and
`Literal.code` numbers them in that order.
-/

namespace BitUnroll

/-- An assignment of truth values to all variables. -/
abbrev Valuation := Nat → Bool

/-- A variable with a sign, which is true for the variable itself and false for its negation. -/
structure Literal where
  var : Nat
  sign : Bool
  deriving DecidableEq, Repr

namespace Literal

instance : Inhabited Literal := ⟨⟨0, true⟩⟩

/-- The constant true. -/
def top : Literal := ⟨0, true⟩

/-- The constant false. -/
def bottom : Literal := ⟨0, false⟩

/-- The constant literal of a truth value. -/
def ofBool (value : Bool) : Literal := ⟨0, value⟩

/-- The literal of the other sign. -/
def negate (l : Literal) : Literal := ⟨l.var, !l.sign⟩

instance : Neg Literal := ⟨negate⟩

/-- Whether a literal is one of the two constants. -/
def isConstant (l : Literal) : Bool := l.var == 0

/-- The value of a literal under an assignment. -/
def eval (l : Literal) (v : Valuation) : Bool := v l.var == l.sign

/-- The number of a literal in the order of literals. -/
def code (l : Literal) : Nat := 2 * l.var + l.sign.toNat

/-- The DIMACS number of a literal: one more than its variable, with its sign. -/
def toDimacs (l : Literal) : Int := if l.sign then l.var + 1 else -(l.var + 1)

/-- The literal with a DIMACS number. Zero is no literal's number. -/
def ofDimacs? (n : Int) : Option Literal :=
  if n = 0 then none else some ⟨n.natAbs - 1, decide (0 < n)⟩

/-- Two literals in increasing order. -/
def sort (a b : Literal) : Literal × Literal := if a.code ≤ b.code then (a, b) else (b, a)

@[simp] theorem var_neg (l : Literal) : (-l).var = l.var := rfl

@[simp] theorem sign_neg (l : Literal) : (-l).sign = !l.sign := rfl

@[simp] theorem neg_neg (l : Literal) : - -l = l := by
  cases l; simp [Neg.neg, negate]

theorem neg_ne (l : Literal) : -l ≠ l := fun h => by
  have := congrArg Literal.sign h
  simp at this

@[simp] theorem neg_top : -top = bottom := rfl

@[simp] theorem neg_bottom : -bottom = top := rfl

@[simp] theorem eval_neg (l : Literal) (v : Valuation) : (-l).eval v = !l.eval v := by
  simp only [eval, var_neg, sign_neg]
  cases v l.var <;> cases l.sign <;> rfl

theorem eval_ofBool {v : Valuation} (h : v 0 = true) (b : Bool) : (ofBool b).eval v = b := by
  cases b <;> simp [eval, ofBool, h]

theorem code_injective {a b : Literal} (h : a.code = b.code) : a = b := by
  obtain ⟨x, s⟩ := a
  obtain ⟨y, t⟩ := b
  cases s <;> cases t <;> simp [code] at h ⊢ <;> omega

@[simp] theorem ofDimacs?_toDimacs (l : Literal) : ofDimacs? l.toDimacs = some l := by
  obtain ⟨x, s⟩ := l
  cases s
  · simp [toDimacs, ofDimacs?]; omega
  · have h : (x : Int) + 1 ≠ 0 := by omega
    have h' : 0 < (x : Int) + 1 := by omega
    simp [toDimacs, ofDimacs?, h, h']; omega

end Literal

end BitUnroll
