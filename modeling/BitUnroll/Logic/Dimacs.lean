import BitUnroll.Logic.Cnf
import BitUnroll.Text

/-!
# Formulas as text

The DIMACS form of a formula: a header with the number of variables and of clauses, then the
numbers of each clause's literals, each clause ended by a zero. Lines that begin with `c` are
comments. Writing puts every clause on a line of its own; reading only asks that numbers are
separated by blanks and that the header counts the clauses.

## Main definitions

* `Cnf.toDimacs`: the text of a formula.
* `Cnf.ofDimacs?`: the formula of a text.
-/

namespace BitUnroll

namespace Cnf

/-! ## Writing -/

/-- One clause as a line: its DIMACS numbers, each followed by a space, and a zero. -/
def clauseLine (c : Clause) : String :=
  String.join (c.map fun l => toString l.toDimacs ++ " ") ++ "0\n"

/-- The text of a formula: a line with both counts, then a line for each clause. -/
def toDimacs (f : Cnf) : String :=
  "p cnf " ++ toString f.numVars ++ " " ++ toString f.clauses.size ++ "\n" ++
    String.join (f.clauses.toList.map clauseLine)

/-! ## Reading -/

/-- The lines of a text, without their ends. -/
def lines : List Char → List (List Char)
  | [] => []
  | c :: rest =>
    if c = '\n' then [] :: lines rest
    else match lines rest with
      | [] => [[c]]
      | line :: others => (c :: line) :: others

/-- The words of a line, the first of which goes on from `reversed`. -/
def wordsFrom (reversed : List Char) : List Char → List (List Char)
  | [] => if reversed.isEmpty then [] else [reversed.reverse]
  | c :: rest =>
    if Text.isBlank c then
      if reversed.isEmpty then wordsFrom [] rest else reversed.reverse :: wordsFrom [] rest
    else wordsFrom (c :: reversed) rest

/-- The number that a word is. -/
def number? : List Char → Option Int
  | '-' :: digits => (Text.nat? digits).map fun n => -(n : Int)
  | digits => (Text.nat? digits).map Int.ofNat

/-- The clauses of a sequence of numbers, the first of which goes on from `reversed`. -/
def clausesFrom (reversed : Clause) : List Int → Option (List Clause)
  | [] => if reversed.isEmpty then some [] else none
  | n :: rest =>
    match Literal.ofDimacs? n with
    | some l => clausesFrom (l :: reversed) rest
    | none => (clausesFrom [] rest).map (reversed.reverse :: ·)

/-- Whether a line is a comment. -/
def isComment (line : List Char) : Bool := line.head? == some 'c'

/-- The formula of the words of lines, the first of which is the header. -/
def ofWords? : List (List (List Char)) → Option Cnf
  | [['p'], ['c', 'n', 'f'], vars, count] :: rest => do
    let clauses ← clausesFrom [] (← rest.flatten.mapM number?)
    if (← Text.nat? count) = clauses.length then
      return { numVars := ← Text.nat? vars, clauses := clauses.toArray }
    else none
  | _ => none

/-- The formula of a text. Comments and empty lines are skipped. -/
def ofDimacs? (text : String) : Option Cnf :=
  let kept := (lines text.toList).filter fun line => !isComment line
  ofWords? ((kept.map (wordsFrom [])).filter fun words => !words.isEmpty)

end Cnf

end BitUnroll
