import BitUnroll.SExpr.Token

/-!
# S-expressions

A script is a sequence of trees whose leaves are names. `SExpr.render` writes a tree on one line:
names as they are, the members of a list separated by single spaces. `SExpr.readAll` reads every
tree of a text. Reading fails exactly where parentheses or bars do not pair up, and the error names
the line of the one that is left over: a closing parenthesis outside of every list, the bar of a
name that the text ends in, or the opening parenthesis of the innermost list that the text ends in.

## Main definitions

* `SExpr`: the trees, written by `SExpr.render` and read by `SExpr.readAll`.
-/

namespace BitUnroll

/-! ## Trees -/

/-- A tree of names. -/
inductive SExpr where
  | atom (name : String)
  | list (items : List SExpr)
  deriving Repr

namespace SExpr

instance : Inhabited SExpr := ⟨.list []⟩

mutual

/-- The text of a tree. Names are not quoted. -/
def render : SExpr → String
  | .atom name => name
  | .list items => "(" ++ renderItems items ++ ")"

/-- The texts of the members of a list, separated by single spaces. -/
def renderItems : List SExpr → String
  | [] => ""
  | [item] => render item
  | item :: rest => render item ++ " " ++ renderItems rest

end

@[simp] theorem render_atom (name : String) : render (.atom name) = name := by simp [render]

@[simp] theorem render_list (items : List SExpr) :
    render (.list items) = "(" ++ renderItems items ++ ")" := by simp [render]

end SExpr

/-! ## Reading -/

/-- A parenthesis or bar without its partner. -/
inductive SyntaxError where
  | unexpectedClose (line : Nat)
  | unterminatedList (line : Nat)
  | unterminatedName (line : Nat)
  deriving DecidableEq, Repr

/-- The wording of a syntax error. -/
def SyntaxError.message : SyntaxError → String
  | .unexpectedClose line => "line " ++ toString line ++ ": unexpected closing paren"
  | .unterminatedList line => "line " ++ toString line ++ ": unterminated list"
  | .unterminatedName line => "line " ++ toString line ++ ": unterminated quoted name"

namespace SExpr

/-- A list that is still open: the line of its parenthesis and the members before it in the list
around it, in reverse. -/
structure OpenList where
  line : Nat
  before : List SExpr

/-- Builds trees from tokens. `outer` holds the lists around the current one, innermost first,
and `items` the members of the current one in reverse. -/
def build (openBar? : Option Nat) :
    List OpenList → List SExpr → List Token → Except SyntaxError (List SExpr)
  | outer, items, [] =>
    match openBar?, outer with
    | some line, _ => .error (.unterminatedName line)
    | none, innermost :: _ => .error (.unterminatedList innermost.line)
    | none, [] => .ok items.reverse
  | outer, items, .name text :: rest => build openBar? outer (.atom text :: items) rest
  | outer, items, .opening line :: rest => build openBar? (⟨line, items⟩ :: outer) [] rest
  | [], _, .closing line :: _ => .error (.unexpectedClose line)
  | innermost :: outer, items, .closing _ :: rest =>
    build openBar? outer (.list items.reverse :: innermost.before) rest

/-- Every tree of a text, in order. -/
def readAll (text : String) : Except SyntaxError (List SExpr) :=
  let scanned := Token.scan text.toList
  build scanned.openBar? [] [] scanned.tokens

end SExpr

end BitUnroll
