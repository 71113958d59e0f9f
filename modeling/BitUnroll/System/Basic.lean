import BitUnroll.Expr.Basic
import BitUnroll.Types

/-!
# Transition systems

A transition system has state variables, a condition on the first state and a condition on each
pair of successive states. A design is a collection of transition systems by name.

## Main definitions

* `TransitionSystem.varWidths`: the variables that have bits.
* `Design.insert`, `Design.get?`: the last system of a name counts.
-/

namespace BitUnroll

/-- State variables with the conditions on the first state and on each transition. -/
structure TransitionSystem where
  name : String
  vars : List (String × Ty) := []
  init : Expr := .truth true
  trans : Expr := .truth true
  deriving Repr

namespace TransitionSystem

/-- Declares a variable behind the others. -/
def addVar (ts : TransitionSystem) (name : String) (ty : Ty) : TransitionSystem :=
  { ts with vars := ts.vars ++ [(name, ty)] }

/-- The type of the first variable of a name. -/
def var? (ts : TransitionSystem) (name : String) : Option Ty :=
  (ts.vars.find? fun (other, _) => other == name).map (·.2)

/-- The variables that have bits, with their number, in the order of declaration. -/
def varWidths (ts : TransitionSystem) (types : TypeTable) : List (String × Nat) :=
  (ts.vars.map fun (name, ty) => (name, types.width ty)).filter fun (_, width) => 0 < width

end TransitionSystem

/-- Transition systems by name. -/
structure Design where
  systems : Std.TreeMap String TransitionSystem := ∅

namespace Design

/-- The design without systems. -/
def empty : Design := {}

/-- Enters a system under its name, whatever was there before. -/
def insert (d : Design) (ts : TransitionSystem) : Design := ⟨d.systems.insert ts.name ts⟩

/-- The system of a name. -/
def get? (d : Design) (name : String) : Option TransitionSystem := d.systems[name]?

/-- Changes the system of a name, if there is one, in place. -/
def modify (d : Design) (name : String) (f : TransitionSystem → TransitionSystem) : Design :=
  ⟨d.systems.modify name f⟩

@[simp] theorem get?_empty (name : String) : empty.get? name = none := by simp [empty, get?]

theorem get?_insert (d : Design) (ts : TransitionSystem) (name : String) :
    (d.insert ts).get? name = if ts.name = name then some ts else d.get? name := by
  simp [insert, get?, Std.TreeMap.getElem?_insert]

theorem get?_modify (d : Design) (name other : String) (f : TransitionSystem → TransitionSystem) :
    (d.modify name f).get? other =
      if name = other then (d.get? other).map f else d.get? other := by
  simp only [modify, get?, Std.TreeMap.getElem?_modify, Std.LawfulEqCmp.compare_eq_iff_eq]
  split <;> simp_all

end Design

end BitUnroll
