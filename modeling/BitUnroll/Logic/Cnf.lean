import BitUnroll.Logic.Literal

/-!
# Formulas in conjunctive normal form

A formula is a list of clauses over variables that are counted. Clauses keep their order and
their literals' order, as both are visible in the written form.

## Main definitions

* `Cnf.eval`: whether an assignment makes every clause true.
* `Cnf.newVar`, `Cnf.addClause`: the two ways in which a formula grows.
* `Cnf.Scoped`: only variables that were handed out are mentioned.
-/

namespace BitUnroll

/-- A disjunction of literals. -/
abbrev Clause := List Literal

/-- Whether an assignment makes one of the literals true. -/
def Clause.eval (c : Clause) (v : Valuation) : Bool := c.any (·.eval v)

/-- A conjunction of clauses, with the number of variables handed out so far. -/
structure Cnf where
  numVars : Nat := 0
  clauses : Array Clause := #[]
  deriving DecidableEq, Repr

namespace Cnf

/-- Whether an assignment makes every clause true. -/
def eval (f : Cnf) (v : Valuation) : Bool := f.clauses.all (Clause.eval · v)

/-- Hands out the next variable. -/
def newVar (f : Cnf) : Nat × Cnf := (f.numVars, { f with numVars := f.numVars + 1 })

/-- Adds a clause behind the others. -/
def addClause (f : Cnf) (c : Clause) : Cnf := { f with clauses := f.clauses.push c }

/-- Adds clauses behind the others, in order. -/
def addClauses (f : Cnf) (cs : List Clause) : Cnf := { f with clauses := f.clauses ++ cs }

/-- Every clause mentions only variables that were handed out. -/
def Scoped (f : Cnf) : Prop := ∀ c ∈ f.clauses, ∀ l ∈ c, l.var < f.numVars

@[simp] theorem numVars_newVar (f : Cnf) : f.newVar.2.numVars = f.numVars + 1 := rfl

@[simp] theorem clauses_newVar (f : Cnf) : f.newVar.2.clauses = f.clauses := rfl

@[simp] theorem numVars_addClause (f : Cnf) (c : Clause) : (f.addClause c).numVars = f.numVars :=
  rfl

@[simp] theorem numVars_addClauses (f : Cnf) (cs : List Clause) :
    (f.addClauses cs).numVars = f.numVars := rfl

theorem toList_clauses_addClause (f : Cnf) (c : Clause) :
    (f.addClause c).clauses.toList = f.clauses.toList ++ [c] := by
  simp [addClause]

theorem toList_clauses_addClauses (f : Cnf) (cs : List Clause) :
    (f.addClauses cs).clauses.toList = f.clauses.toList ++ cs := by
  simp [addClauses]

/-- An assignment makes a formula true when it makes all clauses of its list true. -/
theorem eval_eq_all (f : Cnf) (v : Valuation) :
    f.eval v = f.clauses.toList.all (Clause.eval · v) := by
  simp [eval]

@[simp] theorem eval_newVar (f : Cnf) (v : Valuation) : f.newVar.2.eval v = f.eval v := rfl

@[simp] theorem eval_addClause (f : Cnf) (c : Clause) (v : Valuation) :
    (f.addClause c).eval v = (f.eval v && c.eval v) := by
  simp [eval_eq_all, toList_clauses_addClause]

@[simp] theorem eval_addClauses (f : Cnf) (cs : List Clause) (v : Valuation) :
    (f.addClauses cs).eval v = (f.eval v && cs.all (Clause.eval · v)) := by
  simp [eval_eq_all, toList_clauses_addClauses]

end Cnf

end BitUnroll
