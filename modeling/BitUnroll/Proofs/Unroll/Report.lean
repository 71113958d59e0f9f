import BitUnroll.Proofs.Logic.Dimacs
import BitUnroll.Proofs.Unroll.Encoding
import BitUnroll.Unroll.Report

/-!
# What reports say

Where the formula of a script is printed, it stands behind the comment lines of the conversions, and
whoever reads the whole text as a formula gets it back. A conversion is written with its name as it
is, and a name in bars may go over several lines; then its comment ends too early, and what follows
is read as part of the formula.

## Main definitions

* `Converted.commentText`: the comment of a conversion.

## Main statements

* `Encoding.lines_dimacs_iff`: each conversion has one line if no name goes over several lines, and
  only then.
* `runScript_ok_iff`: a run prints what is reported of the encoding of its script.
* `runScript_dimacs`: what is read from the text that a run prints.
-/

namespace BitUnroll

/-- The comment of a conversion, without the end of its line. -/
def Converted.commentText (k : Converted) : List Char :=
  ("c convert " ++ k.name ++ String.join (k.word.map fun l => " " ++ toString l.toDimacs)).toList

namespace Converted

theorem toList_commentLine (k : Converted) : k.commentLine.toList = k.commentText ++ ['\n'] :=
  String.toList_append

theorem isComment_commentText (k : Converted) : Cnf.isComment k.commentText = true := by
  rw [commentText, String.toList_append, String.toList_append]
  rfl

/-- Only the name of a conversion can go over several lines. -/
theorem newline_mem_commentText (k : Converted) :
    '\n' ∈ k.commentText ↔ '\n' ∈ k.name.toList := by
  have hbits : '\n' ∉ (String.join (k.word.map fun l => " " ++ toString l.toDimacs)).toList := by
    rw [String.toList_join, List.flatMap_map]
    intro h
    obtain ⟨l, -, h⟩ := List.mem_flatMap.1 h
    rw [String.toList_append] at h
    rcases List.mem_append.1 h with h | h
    · exact absurd h (by decide)
    · rcases Cnf.mem_word h with h | h
      · cases h
      · exact absurd h (by decide)
  have hstart : '\n' ∉ "c convert ".toList := by decide
  rw [commentText, String.toList_append, String.toList_append]
  simp only [List.mem_append, hbits, hstart, false_or, or_false]

end Converted

namespace Encoding

theorem toList_dimacs (e : Encoding) : e.dimacs.toList =
    (e.conversions.map Converted.commentText).flatMap (· ++ ['\n']) ++
      e.circuit.formula.toDimacs.toList := by
  rw [dimacs, String.toList_append, String.toList_join, List.flatMap_map, List.flatMap_map]
  simp only [Converted.toList_commentLine]

/-- The text of a formula with conversions has one line for each conversion before the lines of the
formula if no conversion's name goes over several lines, and only then. -/
theorem lines_dimacs_iff (e : Encoding) :
    Cnf.lines e.dimacs.toList =
        e.conversions.map Converted.commentText ++ Cnf.lines e.circuit.formula.toDimacs.toList ↔
      ∀ k ∈ e.conversions, '\n' ∉ k.name.toList := by
  constructor
  · -- no line of a text has a line's end in it, so the comment of such a name is not one of them
    intro hlines k hk hnewline
    have hmem : k.commentText ∈ Cnf.lines e.dimacs.toList := by
      rw [hlines]
      exact List.mem_append_left _ (List.mem_map_of_mem hk)
    exact Cnf.not_mem_of_mem_lines hmem (k.newline_mem_commentText.2 hnewline)
  · intro hnames
    rw [toList_dimacs, Cnf.lines_flatMap]
    intro line hline
    obtain ⟨k, hk, rfl⟩ := List.mem_map.1 hline
    exact mt k.newline_mem_commentText.1 (hnames k hk)

/-- The formula is read from the text if no conversion's name goes over several lines. -/
theorem ofDimacs?_dimacs {e : Encoding} (hnames : ∀ k ∈ e.conversions, '\n' ∉ k.name.toList) :
    Cnf.ofDimacs? e.dimacs = some e.circuit.formula := by
  refine Cnf.ofDimacs?_of_lines (e.lines_dimacs_iff.2 hnames) fun line hline => ?_
  obtain ⟨k, -, rfl⟩ := List.mem_map.1 hline
  exact k.isComment_commentText

end Encoding

/-- The converted words of an encoding stand for the conversions of the script, in order. -/
theorem Script.converted_of_unroll {s : Script} {config : Config} {onRefusal : OnRefusal}
    {e : Encoding} (h : (s.unroll config onRefusal).Succeeds e) :
    List.Forall₂ (fun c k => k.name = c.name ∧ k.expr = c.expr) s.conversions.toList
      e.conversions := by
  obtain ⟨ts, net, required, -, -, -, -, -, hconversions⟩ := fits_of_encode h fun _ _ _ => false
  exact hconversions.imp fun c k hk => ⟨hk.name_eq, hk.expr_eq⟩

/-- Words that stand for conversions have their names. -/
theorem forall_name_iff {cs : List Conversion} {ks : List Converted}
    (h : List.Forall₂ (fun c k => k.name = c.name ∧ k.expr = c.expr) cs ks) (P : String → Prop) :
    (∀ k ∈ ks, P k.name) ↔ ∀ c ∈ cs, P c.name := by
  induction h with
  | nil => simp
  | cons hname _ ih => rw [List.forall_mem_cons, List.forall_mem_cons, ih, hname.1]

/-- What was read goes on as it is, and nothing is printed. -/
theorem Attempt.run_ofElab_ok_iff {α : Type} {x : Except Failure α} {a : α}
    {log log' : MessageLog} :
    (ofElab x).run log = (.ok a, log') ↔ x = .ok a ∧ log = log' := by
  cases x with
  | error f =>
    refine ⟨fun h => ?_, fun h => ?_⟩
    · cases h
    · cases h.1
  | ok b =>
    refine ⟨fun h => ?_, ?_⟩
    · cases h
      exact ⟨rfl, rfl⟩
    · rintro ⟨h, rfl⟩
      rw [Except.ok.inj h]
      rfl

/-- That a run succeeds can be told by evaluation. -/
theorem Attempt.exists_run_of_toOption {α : Type} {x : Attempt α} {a : α} {log : MessageLog}
    (h : (x.run log : Except Halt α × MessageLog).1.toOption = some a) :
    ∃ log', x.run log = (.ok a, log') := by
  rcases hrun : (x.run log : Except Halt α × MessageLog) with ⟨f | b, log'⟩ <;> rw [hrun] at h
  · cases h
  · exact ⟨log', by rw [Option.some.inj h]⟩

/-- A run that prints a text has read and unrolled its script, and reports the encoding. -/
theorem runScript_ok_iff {text out : String} {config : Config} {onRefusal : OnRefusal}
    {solver : Solver} {log log' : MessageLog} :
    (runScript text config onRefusal solver).run log = (.ok out, log') ↔
      ∃ s e, Script.parse text = .ok s ∧ (s.unroll config onRefusal).run log = (.ok e, log') ∧
        e.report s.types config.solve solver = .ok out := by
  constructor
  · intro hrun
    obtain ⟨s, log₁, hparse, hrun⟩ := run_bind_ok hrun
    obtain ⟨e, log₂, he, hreport⟩ := run_bind_ok hrun
    obtain ⟨hs, rfl⟩ := Attempt.run_ofElab_ok_iff.1 hparse
    obtain ⟨hout, rfl⟩ := Attempt.run_ofElab_ok_iff.1 hreport
    exact ⟨s, e, hs, he, hout⟩
  · rintro ⟨s, e, hs, he, hout⟩
    rw [runScript, run_bind, Attempt.run_ofElab_ok_iff.2 ⟨hs, rfl⟩]
    show (s.unroll config onRefusal >>= fun e => _).run log = _
    rw [run_bind, he]
    exact Attempt.run_ofElab_ok_iff.2 ⟨hout, rfl⟩

/-- **The printed formula can be read back.** A run that prints a formula prints that of the
script's encoding, whose conversions are those of the script in their order. If no name of a
conversion goes over several lines, then the text is one comment line for each conversion and then
the lines of the formula, and it is read as exactly that formula. If some name does, then the text
is not made up of these lines. -/
theorem runScript_dimacs {text out : String} {config : Config} {onRefusal : OnRefusal}
    {solver : Solver} {log log' : MessageLog} (hconfig : config.solve = false)
    (hrun : (runScript text config onRefusal solver).run log = (.ok out, log')) :
    ∃ s e, Script.parse text = .ok s ∧ (s.unroll config onRefusal).run log = (.ok e, log') ∧
      List.Forall₂ (fun c k => k.name = c.name ∧ k.expr = c.expr) s.conversions.toList
        e.conversions ∧
      (Cnf.lines out.toList = e.conversions.map Converted.commentText ++
          Cnf.lines e.circuit.formula.toDimacs.toList ↔
        ∀ c ∈ s.conversions.toList, '\n' ∉ c.name.toList) ∧
      ((∀ c ∈ s.conversions.toList, '\n' ∉ c.name.toList) →
        Cnf.ofDimacs? out = some e.circuit.formula) := by
  obtain ⟨s, e, hs, he, hout⟩ := runScript_ok_iff.1 hrun
  rw [hconfig] at hout
  obtain rfl : e.dimacs = out := Except.ok.inj hout
  have hconversions := Script.converted_of_unroll ⟨log, log', he⟩
  have hnames := forall_name_iff hconversions fun name => '\n' ∉ name.toList
  refine ⟨s, e, hs, he, hconversions, ?_, fun h => ?_⟩
  · rw [← hnames]
    exact e.lines_dimacs_iff
  · exact Encoding.ofDimacs?_dimacs (hnames.2 h)

/-- That a script is read and unrolled to an encoding with a text can be told by evaluation, and
then this text is printed, whichever solver there is. -/
theorem exists_run_of_dimacs {text out : String} {config : Config}
    (hconfig : config.solve = false)
    (h : (Script.parse text).toOption.any (fun s =>
      ((s.encode config).run {} : Except Halt Encoding × MessageLog).1.toOption.any
        (·.dimacs == out)) = true) (solver : Solver) :
    ∃ log, (runScript text config .propagate solver).run {} = (.ok out, log) := by
  obtain ⟨s, e, log, hs, he, hout⟩ := Script.exists_encode_of_any h
  refine ⟨log, runScript_ok_iff.2 ⟨s, e, hs, he, ?_⟩⟩
  rw [hconfig]
  exact congrArg Except.ok (eq_of_beq hout)

/-- A script with two conversions, one of them with a name in bars. -/
theorem runScript_dimacs_two_conversions :
    let text := "(declare-var x bool) (init (not x)) (convert |next to x| (next x)) (convert y x)"
    let out := "c convert next to x 3\nc convert y 2\np cnf 3 2\n1 0\n-2 0\n"
    ∃ s e log, Script.parse text = .ok s ∧ (s.unroll {} .propagate).run {} = (.ok e, log) ∧
      Cnf.lines out.toList = e.conversions.map Converted.commentText ++
        Cnf.lines e.circuit.formula.toDimacs.toList ∧
      Cnf.ofDimacs? out = some e.circuit.formula := by
  intro text out
  let solver : Solver := fun _ => .failed ""
  obtain ⟨log, hrun⟩ : ∃ log, (runScript text {} .propagate solver).run {} = (.ok out, log) :=
    exists_run_of_dimacs rfl (by decide +kernel) solver
  have hnames : (Script.parse text).toOption.any (fun s =>
      ∀ c ∈ s.conversions.toList, '\n' ∉ c.name.toList) = true := by decide +kernel
  obtain ⟨s, e, hs, he, -, hlines, hread⟩ := runScript_dimacs rfl hrun
  rw [hs] at hnames
  have hnames := of_decide_eq_true hnames
  exact ⟨s, e, log, hs, he, hlines.2 hnames, hread hnames⟩

/-- The name of a conversion may hold the start of another formula; what is printed is then no
formula at all. -/
theorem exists_unreadable_report :
    let text := "(convert |a\np cnf 1 0\n| true)"
    let out := "c convert a\np cnf 1 0\n 1\np cnf 1 1\n1 0\n"
    (∀ solver, ∃ log, (runScript text {} .propagate solver).run {} = (.ok out, log)) ∧
      Cnf.ofDimacs? out = none := by
  intro text out
  exact ⟨exists_run_of_dimacs rfl (by decide +kernel), by decide +kernel⟩

end BitUnroll
