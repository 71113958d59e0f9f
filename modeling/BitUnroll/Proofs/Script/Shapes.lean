import BitUnroll.Proofs.Lowering.Shape
import BitUnroll.Proofs.Script.Elaboration
import BitUnroll.Symbols.Unrolled

/-!
# Shapes of the expressions of a script

Every expression that a script holds was elaborated, or is a conjunction of such expressions. The
elaborator gives each operator the operands that it wants, and to the result the type that goes with
its width. Neither is a matter of what named types stand for, so both are still there at the end of
a script, whatever its names stand for by then.

## Main definitions

* `Script.Holds`: the expressions that a script holds.

## Main statements

* `Script.Effect.forall_holds`: what elaboration and conjunction keep holds of all of them.
* `Script.parse_wellFormed`: they are never refused for a number of operands, and their words have
  the widths of their types.
-/

namespace BitUnroll

/-- The expressions that are built from the variables of a scope are of the right shape. -/
theorem Scope.Builds.shaped {scope : Scope} {e : Expr} (h : scope.Builds e) : e.Shaped := by
  induction h with
  | truth | number | retyped | symbol | next | absent => exact Expr.shaped_node.2 ⟨trivial, by simp⟩
  | node _ _ _ hshape ih => exact Expr.shaped_node.2 ⟨hshape, ih⟩

namespace Script

variable {s s' : Script} {name : CommandName} {args : List SExpr} {Q : Expr → Prop}

/-- The conditions of a script's modules, its constraints and its conversions. -/
inductive Holds (s : Script) : Expr → Prop
  | init {module : String} {ts : TransitionSystem} (hts : s.design.get? module = some ts) :
    Holds s ts.init
  | trans {module : String} {ts : TransitionSystem} (hts : s.design.get? module = some ts) :
    Holds s ts.trans
  | constraint {c : Constraint} (hc : c ∈ s.constraints) : Holds s c.expr
  | conversion {c : Conversion} (hc : c ∈ s.conversions) : Holds s c.expr

theorem forall_holds_iff : (∀ e, s.Holds e → Q e) ↔ (s.Every fun ts => Q ts.init ∧ Q ts.trans) ∧
    (∀ c ∈ s.constraints, Q c.expr) ∧ ∀ c ∈ s.conversions, Q c.expr := by
  constructor
  · intro h
    exact ⟨fun module ts hts => ⟨h _ (.init hts), h _ (.trans hts)⟩,
      fun c hc => h _ (.constraint hc), fun c hc => h _ (.conversion hc)⟩
  · rintro ⟨hsystems, hconstraints, hconversions⟩ e he
    cases he with
    | init hts => exact (hsystems _ _ hts).1
    | trans hts => exact (hsystems _ _ hts).2
    | constraint hc => exact hconstraints _ hc
    | conversion hc => exact hconversions _ hc

/-- What holds of all that is elaborated, and of conjunctions exactly if it holds of their operands,
is kept by every command. -/
theorem Effect.forall_holds (h : s.Effect name args s')
    (hbuilds : ∀ {scope : Scope} {e : Expr}, scope.Builds e → Q e)
    (hconjunction : ∀ es, (∀ x ∈ es, Q x) → Q (.conjunction es))
    (hoperands : ∀ e, Q e → ∀ x ∈ e.operands, Q x) (hs : ∀ e, s.Holds e → Q e) :
    ∀ e, s'.Holds e → Q e := by
  rw [forall_holds_iff] at hs ⊢
  obtain ⟨hsystems, hconstraints, hconversions⟩ := hs
  have hbuilt : Scope.Builds ⟨.empty, { name := "" }⟩ (.truth true) := .truth true
  have htruth : Q (.truth true) := hbuilds hbuilt
  have hconjoin : ∀ {e added : Expr}, Q e → Q added → Q (conjoin e added) := fun he hadded =>
    conjoin_induction hconjunction (hoperands _ he) he hadded
  cases h with
  | module other =>
    exact ⟨hsystems.selectModule (fun _ => ⟨htruth, htruth⟩) other, hconstraints, hconversions⟩
  | typedef => exact ⟨hsystems, hconstraints, hconversions⟩
  | declareVar hts => exact ⟨hsystems.modified hts id, hconstraints, hconversions⟩
  | init hts he =>
    have he := hbuilds (Scope.builds_boolExpr he)
    exact ⟨hsystems.modified hts fun h => ⟨hconjoin h.1 he, h.2⟩, hconstraints, hconversions⟩
  | trans hts he =>
    have he := hbuilds (Scope.builds_boolExpr he)
    exact ⟨hsystems.modified hts fun h => ⟨h.1, hconjoin h.2 he⟩, hconstraints, hconversions⟩
  | constraint hts he =>
    refine ⟨hsystems, fun c hc => ?_, hconversions⟩
    rcases Array.mem_push.1 hc with hc | rfl
    · exact hconstraints c hc
    · exact hbuilds (Scope.builds_boolExpr he)
  | convert hts he =>
    refine ⟨hsystems, hconstraints, fun c hc => ?_⟩
    rcases Array.mem_push.1 hc with hc | rfl
    · exact hconversions c hc
    · exact hbuilds (Scope.builds_expr _ _ _ he)

/-- All expressions of a script are of the right shape. -/
theorem shaped_of_parse {text : String} (h : parse text = .ok s) {e : Expr} (he : s.Holds e) :
    e.Shaped := by
  unfold parse at h
  split at h
  · have hinitial : ∀ e, initial.Holds e → e.Shaped := forall_holds_iff.2
      ⟨every_initial ⟨Expr.shaped_node.2 ⟨trivial, by simp⟩, Expr.shaped_node.2 ⟨trivial, by simp⟩⟩,
        by simp [initial], by simp [initial]⟩
    have hstep : ∀ {s s' : Script} {name : CommandName} {args : List SExpr},
        s.Effect name args s' → (∀ e, s.Holds e → e.Shaped) → ∀ e, s'.Holds e → e.Shaped := by
      intro s s' name args heffect
      refine heffect.forall_holds (fun hbuilds => hbuilds.shaped) (fun es hes => ?_)
        fun e he x hx => ?_
      · exact Expr.shaped_node.2 ⟨trivial, hes⟩
      · obtain ⟨kind, ty, es⟩ := e
        exact (Expr.shaped_node.1 he).2 x hx
    exact runAll_induction hstep h hinitial e he
  · cases h

/-- **Elaborated expressions are well formed.** Take any node of any expression that a script holds.
With the types of the whole script, from any state, in any frame and with any source of symbols,
neither its literal nor its word nor its requirement is refused for a number of operands, and if it
has a word, then the word has the width of its type, one bit if the type is Boolean. -/
theorem parse_wellFormed {text : String} (h : parse text = .ok s) {e x : Expr} (he : s.Holds e)
    (hx : x.Subterm e) (symbols : Symbols) (frame : Frame) (t : Lowering) :
    let setting : Setting := ⟨s.types, symbols⟩
    (∀ kind expected got,
      ((x.toLiteral setting frame).run t).1 ≠ .error (.refused (.operands kind expected got)) ∧
      ((x.toWord setting frame).run t).1 ≠ .error (.refused (.operands kind expected got)) ∧
      ((x.require setting frame).run t).1 ≠ .error (.refused (.operands kind expected got))) ∧
    ∀ w, ((x.toWord setting frame).run t).1 = .ok w →
      w.length = s.types.width x.ty ∧ (s.types.isBool x.ty = true → w.length = 1) := by
  intro setting
  have hshaped := (shaped_of_parse h he).subterm hx
  have hx := hshaped.delivers setting
  refine ⟨fun kind expected got => ⟨(hx.truth frame).operands t kind expected got,
    (hx.word frame).operands t kind expected got,
    (hshaped.delivers_require setting frame).operands t kind expected got⟩, fun w hw => ?_⟩
  have hlength : w.length = s.types.width x.ty := (hx.word frame).result t w hw
  exact ⟨hlength, fun hbool => hlength.trans (TypeTable.width_of_isBool hbool)⟩

/-- The complement of a variable whose type is given eight bits after it was used with four. -/
theorem parse_wellFormed_retyped :
    let text :=
      "(typedef t (unsigned 4)) (declare-var x t) (convert y (~ x)) (typedef t (signed 8))"
    let map := Unrolled.empty.setWord 0 "x" (List.replicate 8 ⟨1, true⟩)
    ∃ s c w, parse text = .ok s ∧ c ∈ s.conversions ∧ s.types.width c.expr.ty = 8 ∧
      ((c.expr.toWord ⟨s.types, .mapped map.resolver⟩ c.frame).run
        { circuit := .initial {} }).1 = .ok w ∧ w.length = 8 := by
  intro text map
  have hparse : (parse text).toOption.any (fun s => s.conversions.any fun c =>
      s.types.width c.expr.ty = 8 ∧ ((c.expr.toWord ⟨s.types, .mapped map.resolver⟩ c.frame).run
        { circuit := .initial {} }).1.toOption.isSome) = true := by decide +kernel
  rcases hs : parse text with f | s <;> rw [hs] at hparse
  · cases hparse
  obtain ⟨c, hc, hw⟩ := Array.any_eq_true'.1 hparse
  obtain ⟨hwidth, hw⟩ := of_decide_eq_true hw
  rcases hrun : ((c.expr.toWord ⟨s.types, .mapped map.resolver⟩ c.frame).run
    { circuit := .initial {} }).1 with fault | w <;> rw [hrun] at hw
  · cases hw
  have hlength := ((parse_wellFormed hs (.conversion hc) .self (.mapped map.resolver) c.frame
    { circuit := .initial {} }).2 w hrun).1
  exact ⟨s, c, w, rfl, hc, hwidth, hrun, hlength.trans hwidth⟩

end Script

end BitUnroll
