import BitUnroll.Logic.Dimacs
import BitUnroll.Sat.Solver
import BitUnroll.Unroll.Encoding

/-!
# Reports

What a run prints: the formula of an encoding in DIMACS form, after a comment line for each
conversion, or, where it is solved, the verdict and the values of the conversions in a model.

## Main definitions

* `Encoding.report`: the text for an encoding.
* `runScript`: from the text of a script to the text of its report.
-/

namespace BitUnroll

namespace Converted

/-- The comment line of a conversion: its name and the DIMACS numbers of its bits. -/
def commentLine (c : Converted) : String :=
  "c convert " ++ c.name ++ String.join (c.word.map fun l => " " ++ toString l.toDimacs) ++ "\n"

/-- The bits of a word under an assignment, the most significant first. -/
def digits (w : Word) (v : Valuation) : String :=
  String.ofList (w.reverse.map fun l => if l.eval v then '1' else '0')

/-- The value of a conversion under an assignment: a truth value where the type is Boolean, else
binary digits. -/
def value (c : Converted) (types : TypeTable) (v : Valuation) : String :=
  match types.isBool c.expr.ty, c.word with
  | true, [l] => toString (l.eval v)
  | _, w => "#b" ++ digits w v

/-- The line of a conversion with its value. -/
def valueLine (c : Converted) (types : TypeTable) (v : Valuation) : String :=
  c.name ++ " " ++ c.value types v ++ "\n"

end Converted

namespace Encoding

/-- The formula with its conversions. -/
def dimacs (e : Encoding) : String :=
  String.join (e.conversions.map Converted.commentLine) ++ e.circuit.formula.toDimacs

/-- The verdict on the formula, with the values of the conversions in a model. -/
def verdict (e : Encoding) (types : TypeTable) (solver : Solver) : Except Failure String :=
  match e.circuit.formula.solve solver with
  | .error error => .error ⟨[.checking], .solver error⟩
  | .ok none => .ok "unsat\n"
  | .ok (some m) =>
    .ok ("sat\n" ++ String.join (e.conversions.map fun c => c.valueLine types m.valuation))

/-- What a run prints of an encoding. -/
def report (e : Encoding) (types : TypeTable) (solve : Bool) (solver : Solver) :
    Except Failure String :=
  if solve then e.verdict types solver else .ok e.dimacs

end Encoding

/-- Reads a script, unrolls it and reports the result. -/
def runScript (text : String) (config : Config) (onRefusal : OnRefusal) (solver : Solver) :
    Attempt String := do
  let script ← Attempt.ofElab (Script.parse text)
  let encoding ← script.unroll config onRefusal
  Attempt.ofElab (encoding.report script.types config.solve solver)

end BitUnroll
