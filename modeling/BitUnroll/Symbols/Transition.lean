import BitUnroll.Logic.Circuit
import BitUnroll.Symbols.Resolver

/-!
# Variables of one transition

The literals of state variables before and after a single transition, without numbered
timeframes: a finite map from a name and a bit to a pair of literals. As a resolver it knows the
timeframes zero and one.
-/

namespace BitUnroll

/-- One bit of a variable. -/
structure NamedBit where
  name : String
  bit : Nat
  deriving DecidableEq, Repr

namespace NamedBit

/-- Named bits are ordered by name, then by number. -/
def order : NamedBit → NamedBit → Ordering :=
  compareLex (compareOn NamedBit.name) (compareOn NamedBit.bit)

instance : Std.TransCmp order :=
  inferInstanceAs (Std.TransCmp (compareLex (compareOn NamedBit.name) (compareOn NamedBit.bit)))

instance : Std.LawfulEqCmp order where
  eq_of_compare {x y} h := by
    obtain ⟨n, i⟩ := x
    obtain ⟨m, j⟩ := y
    simp only [order, compareLex_eq_eq, compareOn] at h
    rw [Std.LawfulEqOrd.eq_of_compare h.1, Std.LawfulEqOrd.eq_of_compare h.2]

end NamedBit

/-- The literals of one bit before and after a transition. -/
structure BitPair where
  current : Literal
  next : Literal
  deriving DecidableEq, Repr

/-- The literal of a phase. -/
def BitPair.at (pair : BitPair) : Phase → Literal
  | .current => pair.current
  | .next => pair.next

/-- The literals of variables before and after a transition. -/
structure TransitionMap where
  pairs : Std.TreeMap NamedBit BitPair NamedBit.order := ∅

namespace TransitionMap

/-- The map without literals. -/
def empty : TransitionMap := {}

/-- The pair of one bit. -/
def pair? (m : TransitionMap) (name : String) (bit : Nat) : Option BitPair :=
  m.pairs[(⟨name, bit⟩ : NamedBit)]?

/-- Sets both literals of one bit. -/
def set (m : TransitionMap) (name : String) (bit : Nat) (current next : Literal) :
    TransitionMap :=
  ⟨m.pairs.insert ⟨name, bit⟩ ⟨current, next⟩⟩

/-- The literal of one bit in a phase. -/
def get? (m : TransitionMap) (name : String) (bit : Nat) (phase : Phase) : Option Literal :=
  (m.pair? name bit).map (·.at phase)

/-- The literal of one bit in a phase, or a miss. -/
def get (m : TransitionMap) (name : String) (bit : Nat) (phase : Phase) : Except Miss Literal :=
  match m.get? name bit phase with
  | some l => .ok l
  | none => .error (.phase phase name bit)

/-- The map as a resolver for the two timeframes of the transition. -/
def resolver (m : TransitionMap) : Resolver where
  multiStep := false
  resolve name bit t :=
    match Phase.ofTimeframe? t with
    | some phase => m.get name bit phase
    | none => .error (.notAPhase name t)

/-- Sets the bits of a variable, from a number on, to fresh pairs. -/
def allocateBits (name : String) : Nat → Nat → TransitionMap → Build TransitionMap
  | _, 0, m => return m
  | bit, count + 1, m => do
    let current ← Circuit.fresh
    let next ← Circuit.fresh
    allocateBits name (bit + 1) count (m.set name bit current next)

/-- Fresh pairs for all bits of variables, given with their widths. -/
def allocate (vars : List (String × Nat)) : Build TransitionMap :=
  vars.foldlM (fun m (name, width) => allocateBits name 0 width m) empty

theorem pair?_set (m : TransitionMap) (name other : String) (bit i : Nat)
    (current next : Literal) :
    (m.set name bit current next).pair? other i =
      if name = other ∧ bit = i then some ⟨current, next⟩ else m.pair? other i := by
  simp [set, pair?, Std.TreeMap.getElem?_insert]

end TransitionMap

end BitUnroll
