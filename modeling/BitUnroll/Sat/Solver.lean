import BitUnroll.Logic.Cnf

/-!
# Solving formulas

Whoever decides formulas is given clauses of DIMACS numbers, and replies with such numbers where
there is a model. Variables that a model leaves out are false, and those beyond the formula's are
dropped. Which solver it is stays open: all that is known of one is what it says of clauses.

## Main definitions

* `Solver`: the functions that decide clauses of numbers.
* `Model`: values of the variables of a formula.
* `Cnf.solve`: a model of a formula, as a solver gives it.
-/

namespace BitUnroll

/-! ## Solvers -/

/-- Clauses with the number of each literal in its place. -/
def Sat.toNumbers (cs : List Clause) : List (List Int) := cs.map (·.map (·.toDimacs))

/-- What a solver says of clauses. -/
inductive Solver.Reply where
  | unsatisfiable
  /-- There is a model, which is given as the numbers of the literals that it makes true. -/
  | satisfiable (model? : Option (List Int))
  | failed (reason : String)
  deriving DecidableEq, Repr

/-- Decides clauses of DIMACS numbers. -/
abbrev Solver := List (List Int) → Solver.Reply

/-- Why there is no answer to whether a formula has a model. -/
inductive SolverError where
  /-- The solver gave up, for a reason of its own. -/
  | failed (reason : String)
  /-- There should be a model, and the solver gave none. -/
  | noModel
  deriving DecidableEq, Repr

/-- The wording of a solver fault. -/
def SolverError.message : SolverError → String
  | .failed reason => "varisat failed: " ++ reason
  | .noModel => "varisat returned no model"

/-! ## Models -/

/-- Values of the variables handed out, by number. -/
abbrev Model := Array Bool

namespace Model

/-- The assignment of a model. Variables beyond it are false. -/
def valuation (m : Model) : Valuation := fun x => m.getD x false

/-- Gives the variable of a DIMACS number the value of its sign, if the variable is there. -/
def assign (m : Model) (n : Int) : Model := m.setIfInBounds (n.natAbs - 1) (decide (0 < n))

/-- The model of DIMACS numbers, of which later ones win. -/
def ofNumbers (size : Nat) (ns : List Int) : Model := ns.foldl assign (Array.replicate size false)

end Model

/-- A model of a formula, if the solver says that it has one. -/
def Cnf.solve (f : Cnf) (solver : Solver) : Except SolverError (Option Model) :=
  match solver (Sat.toNumbers f.clauses.toList) with
  | .unsatisfiable => .ok none
  | .satisfiable (some ns) => .ok (some (.ofNumbers f.numVars ns))
  | .satisfiable none => .error .noModel
  | .failed reason => .error (.failed reason)

end BitUnroll
