import BitUnroll.Proofs.Circuit.Session
import BitUnroll.Proofs.Sat.Solvers
import BitUnroll.Proofs.Unroll.Report

/-!
# What solving reports

Where the formula of a script is solved, and the solver can be relied on, the verdict is right. If
there is a model, then all values are those of one and the same model: a truth value, or a binary
numeral with the most significant bit first. This rests on the formula mentioning only variables
that it handed out, as the model has no values for others.

## Main definitions

* `Word.HasNumeral`, `Converted.ShownAs`: texts that show the value of a word and of a conversion.
* `Encoding.AnsweredBy`: a text is a right answer to whether an encoding has a model.

## Main statements

* `runScript_solved`: formulas are solved, and runs print right answers.
-/

namespace BitUnroll

/-! ## Values as text -/

/-- Binary digits are the numeral of a word under an assignment: there is one for each bit, and read
from the left they are the unsigned value of the word. -/
structure Word.HasNumeral (w : Word) (v : Valuation) (digits : List Char) : Prop where
  length_eq : digits.length = w.length
  binary : ∀ d ∈ digits, d = '0' ∨ d = '1'
  value_eq : Nat.ofDigitChars 2 digits 0 = w.toNat v

namespace Converted

/-- A text shows the value of a conversion under an assignment: the truth value of a single bit of
a Boolean type, and else the numeral of the word. -/
def ShownAs (k : Converted) (types : TypeTable) (v : Valuation) (shown : String) : Prop :=
  if types.isBool k.expr.ty = true ∧ k.word.length = 1 then
    shown = if k.word.toNat v = 1 then "true" else "false"
  else ∃ digits, shown = "#b" ++ String.ofList digits ∧ k.word.HasNumeral v digits

/-- The digits of a word are its numeral, as its first bit, the least significant, comes last. -/
theorem hasNumeral_digits (w : Word) (v : Valuation) :
    w.HasNumeral v (w.reverse.map fun l => if l.eval v then '1' else '0') where
  length_eq := by simp
  binary d hd := by
    obtain ⟨l, -, rfl⟩ := List.mem_map.1 hd
    cases l.eval v <;> simp
  value_eq := by
    induction w with
    | nil => rfl
    | cons l w ih =>
      rw [List.reverse_cons, List.map_append, Nat.ofDigitChars_append, ih, List.map_singleton,
        Nat.ofDigitChars_cons, Nat.ofDigitChars_nil, Word.toNat_cons]
      cases l.eval v <;> simp [Nat.add_comm]

/-- What is written for a conversion shows its value. -/
theorem shownAs_value (k : Converted) (types : TypeTable) (v : Valuation) :
    k.ShownAs types v (k.value types v) := by
  unfold ShownAs value
  by_cases hbit : types.isBool k.expr.ty = true ∧ k.word.length = 1
  · obtain ⟨l, hl⟩ := List.length_eq_one_iff.1 hbit.2
    have hvalue : k.word.toNat v = (l.eval v).toNat := by simp [hl]
    rw [if_pos hbit, hvalue, hbit.1, hl]
    show toString (l.eval v) = _
    cases l.eval v <;> rfl
  · rw [if_neg hbit]
    split
    · rename_i l hbool hl
      exact absurd ⟨hbool, by rw [hl]; rfl⟩ hbit
    · exact ⟨_, rfl, hasNumeral_digits k.word v⟩

end Converted

/-! ## Verdicts -/

namespace Encoding

/-- A text is a right answer to whether the formula of an encoding has a model: it says that there
is none exactly if there is none, and otherwise there is one of which it shows the values of all
conversions, each on a line with its name. -/
structure AnsweredBy (e : Encoding) (types : TypeTable) (out : String) : Prop where
  unsat_iff : out = "unsat\n" ↔ ∀ v, e.circuit.formula.eval v = false
  sat : (∃ v, e.circuit.formula.eval v = true) → ∃ v lines, e.circuit.formula.eval v = true ∧
    List.Forall₂ (fun (k : Converted) line =>
      ∃ shown, line = k.name ++ " " ++ shown ++ "\n" ∧ k.ShownAs types v shown)
      e.conversions lines ∧
    out = "sat\n" ++ String.join lines

theorem sat_append_ne_unsat (s : String) : "sat\n" ++ s ≠ "unsat\n" := by
  intro h
  have hchars := congrArg String.toList h
  rw [String.toList_append] at hchars
  cases hchars

/-- The verdict of a reliable solver is a right answer. -/
theorem answeredBy_verdict {solver : Solver} (hsolver : solver.Reliable) {e : Encoding}
    (he : e.circuit.formula.Scoped) (types : TypeTable) :
    ∃ out, e.verdict types solver = .ok out ∧ e.AnsweredBy types out := by
  rcases Cnf.solve_cases hsolver he with ⟨hsolve, hnone⟩ | ⟨m, hsolve, -, hm⟩
  · exact ⟨"unsat\n", by rw [verdict, hsolve], iff_of_true rfl hnone,
      fun hsat => absurd hsat (Cnf.not_exists_eval_iff.2 hnone)⟩
  · refine ⟨_, by rw [verdict, hsolve], iff_of_false (sat_append_ne_unsat _) fun hnone => ?_,
      fun _ => ⟨m.valuation, _, hm, ?_, rfl⟩⟩
    · exact Cnf.not_exists_eval_iff.2 hnone ⟨_, hm⟩
    · rw [List.forall₂_map_right_iff, List.forall₂_same]
      exact fun k _ => ⟨_, rfl, k.shownAs_value types m.valuation⟩

end Encoding

/-- The formula of an encoding mentions only variables that it handed out. -/
theorem Script.formula_scoped_of_unroll {s : Script} {config : Config} {onRefusal : OnRefusal}
    {e : Encoding} (h : (s.unroll config onRefusal).Succeeds e) : e.circuit.formula.Scoped := by
  obtain ⟨ts, net, required, -, hfits, -⟩ := fits_of_encode h fun _ _ _ => false
  exact hfits.formula_scoped

/-- **Solving reports real assignments.** With a solver that can be relied on, a formula that
mentions only variables which it handed out, as that of every session does, is found to have no
model exactly if it has none, and otherwise a model is found which has a value for each of its
variables. So where a script is encoded and is to be solved, the run prints a text, and whatever a
run prints is a right answer for the encoding of its script, whose conversions are those of the
script in their order. -/
theorem runScript_solved {solver : Solver} (hsolver : solver.Reliable) :
    (∀ f : Cnf, f.Scoped →
      (f.solve solver = .ok none ↔ ∀ v, f.eval v = false) ∧
      ((∃ v, f.eval v = true) →
        ∃ m, f.solve solver = .ok (some m) ∧ m.size = f.numVars ∧ f.eval m.valuation = true)) ∧
    (∀ options log c, Session options log c → c.formula.Scoped) ∧
    ∀ (text : String) (config : Config) (onRefusal : OnRefusal) (log log' : MessageLog),
      config.solve = true →
      (∀ s e, Script.parse text = .ok s → (s.unroll config onRefusal).run log = (.ok e, log') →
        ∃ out, (runScript text config onRefusal solver).run log = (.ok out, log')) ∧
      ∀ out, (runScript text config onRefusal solver).run log = (.ok out, log') →
        ∃ s e, Script.parse text = .ok s ∧ (s.unroll config onRefusal).run log = (.ok e, log') ∧
          List.Forall₂ (fun c k => k.name = c.name ∧ k.expr = c.expr) s.conversions.toList
            e.conversions ∧
          e.AnsweredBy s.types out := by
  refine ⟨fun f hf => ?_, fun options log c hc => ?_, ?_⟩
  · rcases Cnf.solve_cases hsolver hf with ⟨hsolve, hnone⟩ | ⟨m, hsolve, hsize, hm⟩
    · exact ⟨iff_of_true hsolve hnone,
        fun hsat => absurd hsat (Cnf.not_exists_eval_iff.2 hnone)⟩
    · refine ⟨iff_of_false ?_ fun hnone => Cnf.not_exists_eval_iff.2 hnone ⟨_, hm⟩,
        fun _ => ⟨m, hsolve, hsize, hm⟩⟩
      rw [hsolve]
      simp
  · obtain ⟨net, required, hexplains⟩ := hc.exists_explains
    exact hexplains.fits.formula_scoped
  · intro text config onRefusal log log' hconfig
    have hanswer : ∀ (s : Script) e, (s.unroll config onRefusal).run log = (.ok e, log') →
        ∃ out, e.report s.types config.solve solver = .ok out ∧ e.AnsweredBy s.types out := by
      intro s e he
      rw [hconfig]
      exact Encoding.answeredBy_verdict hsolver
        (Script.formula_scoped_of_unroll ⟨log, log', he⟩) s.types
    refine ⟨fun s e hs he => ?_, fun out hrun => ?_⟩
    · obtain ⟨out, hout, -⟩ := hanswer s e he
      exact ⟨out, runScript_ok_iff.2 ⟨s, e, hs, he, hout⟩⟩
    · obtain ⟨s, e, hs, he, hreport⟩ := runScript_ok_iff.1 hrun
      obtain ⟨out', hout', hanswered⟩ := hanswer s e he
      obtain rfl := Except.ok.inj (hout'.symm.trans hreport)
      exact ⟨s, e, hs, he, Script.converted_of_unroll ⟨log, log', he⟩, hanswered⟩

/-- A formula with a variable that no clause mentions, a script with a word and a truth value, and
one that contradicts itself, all solved by the search. -/
theorem runScript_solved_search :
    let f : Cnf := { numVars := 3, clauses := #[[⟨0, true⟩], [⟨0, false⟩, ⟨2, true⟩]] }
    let text := "(declare-var x (unsigned 2)) (init (= x 2)) (convert y x) (convert b (> x 0))"
    let absurdity := "(declare-var x bool) (init x) (constraint (not x))"
    let config : Config := { solve := true }
    Solver.search.Reliable ∧
      (∃ m, f.solve .search = .ok (some m) ∧ m.size = 3 ∧ f.eval m.valuation = true) ∧
      (∃ s e log, Script.parse text = .ok s ∧
        (s.unroll config .propagate).run {} = (.ok e, log) ∧
        e.AnsweredBy s.types "sat\ny #b10\nb true\n" ∧ ∃ v, e.circuit.formula.eval v = true) ∧
      ∃ s e log, Script.parse absurdity = .ok s ∧
        (s.unroll config .propagate).run {} = (.ok e, log) ∧
        ∀ v, e.circuit.formula.eval v = false := by
  intro f text absurdity config
  obtain ⟨hformula, -, hscript⟩ := runScript_solved Solver.reliable_search
  refine ⟨Solver.reliable_search, (hformula f ?_).2 ⟨fun _ => true, by decide +kernel⟩, ?_, ?_⟩
  · show ∀ c ∈ f.clauses, ∀ l ∈ c, l.var < 3
    decide
  · obtain ⟨log, hrun⟩ : ∃ log, (runScript text config .propagate .search).run {} =
        (.ok "sat\ny #b10\nb true\n", log) :=
      Attempt.exists_run_of_toOption (by decide +kernel)
    obtain ⟨s, e, hs, he, -, hanswered⟩ := (hscript _ _ _ _ _ rfl).2 _ hrun
    have hsat := mt Cnf.not_exists_eval_iff.1 (mt hanswered.unsat_iff.2 (by decide))
    exact ⟨s, e, log, hs, he, hanswered, not_not.1 hsat⟩
  · obtain ⟨log, hrun⟩ : ∃ log, (runScript absurdity config .propagate .search).run {} =
        (.ok "unsat\n", log) :=
      Attempt.exists_run_of_toOption (by decide +kernel)
    obtain ⟨s, e, hs, he, -, hanswered⟩ := (hscript _ _ _ _ _ rfl).2 _ hrun
    exact ⟨s, e, log, hs, he, hanswered.unsat_iff.1 rfl⟩

end BitUnroll
