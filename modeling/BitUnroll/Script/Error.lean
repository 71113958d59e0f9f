import BitUnroll.Expr.Basic
import BitUnroll.SExpr.Reader

/-!
# Why a script is refused

The causes for which a command of a script is refused, with their wording.
-/

namespace BitUnroll

/-- The commands of scripts. -/
inductive CommandName where
  | module
  | typedef
  | declareVar
  | init
  | trans
  | constraint
  | convert
  deriving DecidableEq, Repr

namespace CommandName

/-- The name of a command in scripts. -/
def text : CommandName → String
  | .module => "module"
  | .typedef => "typedef"
  | .declareVar => "declare-var"
  | .init => "init"
  | .trans => "trans"
  | .constraint => "constraint"
  | .convert => "convert"

/-- The command with a name. -/
def ofText? : String → Option CommandName
  | "module" => some .module
  | "typedef" => some .typedef
  | "declare-var" => some .declareVar
  | "init" => some .init
  | "trans" => some .trans
  | "constraint" => some .constraint
  | "convert" => some .convert
  | _ => none

/-- What a command expects after its name. -/
def expects : CommandName → String
  | .module => "a name"
  | .typedef => "a name and a type"
  | .declareVar => "a name and a type"
  | .init => "one expression"
  | .trans => "one expression"
  | .constraint => "an expression and an optional frame"
  | .convert => "a name, an expression and an optional frame"

@[simp] theorem ofText?_text (c : CommandName) : ofText? c.text = some c := by
  cases c <;> rfl

end CommandName

/-- Why a command is refused. -/
inductive ScriptError where
  | notAList
  | emptyCommand
  | expectedAtom (got : SExpr)
  | unknownCommand (name : String)
  | arguments (command : CommandName)
  | alreadyDeclared (name : String)
  | unknownType (name : String)
  | malformedType (text : SExpr)
  | zeroWidthType (text : SExpr)
  | unknownTypeConstructor (name : String)
  | notBoolean (got : Expr)
  | emptyExpression
  | notAVariable
  | reversedBounds (upper lower : Int)
  | widthTooSmall
  | widthTooLarge
  | unknownOperator (name : String) (count : Nat)
  | unknownSymbol (name : String)
  | notConstant (got : Expr)
  | unknownModule (name : String)
  deriving Repr

/-- The wording of a refusal. -/
def ScriptError.message : ScriptError → String
  | .notAList => "expected command list"
  | .emptyCommand => "empty command"
  | .expectedAtom got => "expected atom, got " ++ got.render
  | .unknownCommand name => "unknown command `" ++ name ++ "'"
  | .arguments command => command.text ++ " expects " ++ command.expects
  | .alreadyDeclared name => "variable `" ++ name ++ "' already declared"
  | .unknownType name => "unknown type `" ++ name ++ "'"
  | .malformedType text => "malformed type " ++ text.render
  | .zeroWidthType text => "zero-width type " ++ text.render
  | .unknownTypeConstructor name => "unknown type constructor `" ++ name ++ "'"
  | .notBoolean got => "expected a boolean expression, got " ++ got.render
  | .emptyExpression => "empty expression"
  | .notAVariable => "next expects a state variable"
  | .reversedBounds upper lower =>
    "extract bounds [" ++ toString upper ++ ":" ++ toString lower ++ "] are reversed"
  | .widthTooSmall => "number too small to fit in target type"
  | .widthTooLarge => "number too large to fit in target type"
  | .unknownOperator name count =>
    "unknown operator `" ++ name ++ "' with " ++ toString count ++ " operand(s)"
  | .unknownSymbol name => "unknown symbol `" ++ name ++ "'"
  | .notConstant got => "expected an integer constant, got " ++ got.render
  | .unknownModule name => "module `" ++ name ++ "' not found"

end BitUnroll
