import BitUnroll.Script.Elaborate

/-!
# Scripts

A script is a sequence of commands. Commands declare modules, types and variables, add conditions
to the transition system of the selected module, and list constraints and conversions of the whole
script, each with the frame that it is about.

## Main definitions

* `Script`: what commands have built so far.
* `Script.run`: one command.
* `Script.parse`: the script of a text.
-/

namespace BitUnroll

/-- A condition with the frame that it is about. -/
structure Constraint where
  expr : Expr
  frame : Frame
  deriving Repr

/-- An expression whose bits are asked for under a name. -/
structure Conversion where
  name : String
  expr : Expr
  frame : Frame
  deriving Repr

/-- What commands have built so far. -/
structure Script where
  design : Design
  types : TypeTable
  /-- The module that commands refer to. -/
  selected : String
  constraints : Array Constraint
  conversions : Array Conversion

namespace Script

open Elab (refuse atom)

/-- The module that is selected before any command. -/
def defaultModule : String := "main"

/-- The script without commands: one module without variables. -/
def initial : Script where
  design := Design.empty.insert { name := defaultModule }
  types := .empty
  selected := defaultModule
  constraints := #[]
  conversions := #[]

/-- The transition system of the selected module. -/
def system (s : Script) : Elab TransitionSystem :=
  match s.design.get? s.selected with
  | some ts => .ok ts
  | none => refuse (.unknownModule s.selected)

/-- What names in a command refer to. -/
def scope (s : Script) : Elab Scope := do
  return ⟨s.types, ← s.system⟩

/-- A condition with one more conjunct. The constant true is dropped, and a conjunction grows at
its end. -/
def conjoin (e added : Expr) : Expr :=
  match e.kind with
  | .truth true => added
  | .connective .and => .conjunction (e.operands ++ [added])
  | _ => .conjunction [e, added]

/-! ## Commands -/

/-- Selects a module, which is a new one if there is none of that name. -/
def selectModule (s : Script) (name : String) : Script where
  design := if (s.design.get? name).isSome then s.design else s.design.insert { name := name }
  types := s.types
  selected := name
  constraints := s.constraints
  conversions := s.conversions

/-- Declares a variable of the selected module, which has none of that name yet. -/
def declareVar (s : Script) (name : String) (type : SExpr) : Elab Script := do
  let scope ← s.scope
  let ty ← scope.type type
  if (scope.system.var? name).isSome then refuse (.alreadyDeclared name)
  return { s with design := s.design.modify s.selected (·.addVar name ty) }

/-- The frame of a constraint or conversion: two timeframes, or the first step if none are
given. -/
def frame (command : CommandName) : List SExpr → Elab Frame
  | [] => .ok (.step 0)
  | [current, next] => do
    let current ← Elab.timeframe current
    let next ← Elab.timeframe next
    return ⟨current, next⟩
  | _ => refuse (.arguments command)

/-- A command with its arguments. -/
def execute (s : Script) (command : CommandName) (args : List SExpr) : Elab Script :=
  match command, args with
  | .module, [name] => do return s.selectModule (← atom name)
  | .typedef, [name, type] => do
    let ty ← (← s.scope).type type
    return { s with types := s.types.insert (← atom name) ty }
  | .declareVar, [name, type] => do s.declareVar (← atom name) type
  | .init, [e] => do
    let e ← (← s.scope).boolExpr e
    let grow (ts : TransitionSystem) := { ts with init := conjoin ts.init e }
    return { s with design := s.design.modify s.selected grow }
  | .trans, [e] => do
    let e ← (← s.scope).boolExpr e
    let grow (ts : TransitionSystem) := { ts with trans := conjoin ts.trans e }
    return { s with design := s.design.modify s.selected grow }
  | .constraint, e :: rest => do
    let frame ← frame .constraint rest
    let e ← (← s.scope).boolExpr e
    return { s with constraints := s.constraints.push ⟨e, frame⟩ }
  | .convert, name :: e :: rest => do
    let frame ← frame .convert rest
    let name ← atom name
    let e ← (← s.scope).expr e
    return { s with conversions := s.conversions.push ⟨name, e, frame⟩ }
  | command, _ => refuse (.arguments command)

/-- The command that a tree is. -/
def command (s : Script) : SExpr → Elab Script
  | .atom _ => refuse .notAList
  | .list [] => refuse .emptyCommand
  | .list (head :: args) => do
    let head ← atom head
    match CommandName.ofText? head with
    | some name => s.execute name args
    | none => refuse (.unknownCommand head)

/-- One command, which a failure names. -/
def run (s : Script) (tree : SExpr) : Elab Script :=
  Elab.within (.command tree) (s.command tree)

/-- Commands in order, up to the first failure. -/
def runAll (s : Script) (trees : List SExpr) : Elab Script := trees.foldlM run s

/-- The script of a text. -/
def parse (text : String) : Elab Script :=
  match SExpr.readAll text with
  | .ok trees => initial.runAll trees
  | .error e => .error (.of (.reading e))

end Script

end BitUnroll
