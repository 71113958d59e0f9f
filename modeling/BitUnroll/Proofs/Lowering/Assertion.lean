import BitUnroll.Proofs.Lowering.Comparison
import BitUnroll.Proofs.Lowering.Refusal

/-!
# Requiring an expression or its literal

Requiring a conjunction makes no gate for it: its conjuncts are required one by one, and what is
made for a later one may share gates with what was required before. Still it is no more and no less
than to make the literal of the conjunction and to require that one. Both runs lower the same
conjuncts in the same order, and which way lowering goes is no matter of the circuit, so both end
alike. And both leave behind the models in which the expression is true.

## Main definitions

* `Comparison.unrelated`: circuits of which nothing is known, where only outcomes are compared.
* `Resolver.twice`: a resolver beside itself.

## Main statements

* `Expr.lowers_require_toLiteral`: an expression is required where it has a literal.
* `Lower.Asserts.modelsOn_eq`: the models that a requirement leaves behind.
* `Expr.require_eq_literal`: requiring an expression and requiring its literal.
-/

namespace BitUnroll

/-! ## Outcomes -/

namespace Comparison

/-- Any two circuits, and any two literals. -/
def unrelated : Comparison where
  World := Unit
  le _ _ := True
  circuits _ _ _ := True
  literals _ _ _ := True

theorem lawful_unrelated : unrelated.Lawful where
  refl _ := trivial
  trans _ _ := trivial
  mono _ _ := trivial
  constant _ _ := trivial
  neg _ := trivial
  gate _ _ _ _ _ _ _ _ _ _ _ := ⟨(), trivial, trivial, trivial⟩
  require _ _ _ _ _ _ _ := ⟨(), trivial, trivial, trivial⟩

end Comparison

namespace Resolver

/-- A resolver beside itself, in one frame. -/
def twice (r : Resolver) : Sources where
  left := r
  right := r
  frames := Eq
  reword := id

theorem alike_twice (r : Resolver) : r.twice.Alike .unrelated where
  lawful := Comparison.lawful_unrelated
  answers w f f' hf phase name bit := by
    obtain rfl : f = f' := hf
    show Agree id _ (r.resolve name bit _) (r.resolve name bit _)
    cases r.resolve name bit (phase.timeframe f) with
    | ok l => exact .ok trivial
    | error miss => exact .error miss

end Resolver

theorem Fault.mapMiss_id (fault : Fault) : fault.mapMiss id = fault := by
  cases fault with
  | refused error => rfl
  | crashed crash => cases crash <;> rfl

namespace Expr

variable {types : TypeTable} {r : Resolver} {net : Netlist} {frame : Frame} {e : Expr}
  {s s' : Lowering}

/-- Requiring a literal ends alike with doing nothing. -/
theorem lowers_build_require (r : Resolver) (l : Literal) {α : Type} (a : α) :
    r.twice.Lowers .unrelated () (Lower.build (Circuit.require l)) (pure a) fun _ _ _ => True :=
  fun _ _ _ => .inr ⟨(), trivial, trivial, .ok trivial⟩

/-- Requiring an expression ends as making its literal does. A conjunction's literal is made from
the literals of its conjuncts, which are lowered in the same order. -/
theorem lowers_require_toLiteral (r : Resolver) (types : TypeTable) (e : Expr) (frame : Frame) :
    r.twice.Lowers .unrelated () (e.require ⟨types, .mapped r⟩ frame)
      (e.toLiteral ⟨types, .mapped r⟩ frame) fun _ _ _ => True := by
  have hr := r.alike_twice
  have htruth : ∀ e : Expr, r.twice.Lowers .unrelated () (e.requireTruth ⟨types, .mapped r⟩ frame)
      (e.toLiteral ⟨types, .mapped r⟩ frame) fun _ _ _ => True := by
    intro e
    rw [← bind_pure (e.toLiteral _ _)]
    have hcompares := e.compares hr types (.inl (Sources.shifts_of_eq rfl rfl))
    exact hr.bind (hcompares.truth () frame frame rfl) fun _ l _ _ _ => lowers_build_require r l _
  induction e using require_induction with
  | conjunction ty es ih =>
    have hall : r.twice.Lowers .unrelated () (requireAll ⟨types, .mapped r⟩ es frame)
        ((es.map (Expr.lower ⟨types, .mapped r⟩)).mapM fun x => x.truth frame)
        fun _ _ _ => True := by
      induction es with
      | nil => exact hr.pure trivial
      | cons e es ihs =>
        obtain ⟨he, hes⟩ := List.forall_mem_cons.1 ih
        rw [List.map_cons, List.mapM_cons]
        refine hr.bind he fun _ _ _ _ _ => ?_
        rw [← bind_pure (requireAll _ es frame)]
        exact hr.bind (ihs hes) fun _ _ _ _ _ => hr.pure trivial
    show r.twice.Lowers .unrelated () (requireAll ⟨types, .mapped r⟩ es frame)
      (Lower.logical ⟨types, .mapped r⟩ (.connective .and)
        (lowerAll ⟨types, .mapped r⟩ es) frame) _
    rw [lowerAll_eq_map, ← bind_pure (requireAll _ es frame)]
    exact hr.bind hall fun _ _ _ _ _ _ _ _ => .inr ⟨(), trivial, trivial, .ok trivial⟩
  | equality ty lhs rhs =>
    rw [require_equality]
    exact htruth _
  | other e hrequire =>
    rw [hrequire]
    exact htruth e

/-- Requiring an expression has the outcome of making its literal and requiring that one. -/
theorem result_require (r : Resolver) (types : TypeTable) (e : Expr) (frame : Frame)
    (s : Lowering) : ((e.require ⟨types, .mapped r⟩ frame).run s).1 =
      ((e.requireTruth ⟨types, .mapped r⟩ frame).run s).1 := by
  have hlowers := lowers_require_toLiteral r types e frame s s trivial
  unfold requireTruth
  rw [run_bind]
  rcases hl : ((e.toLiteral ⟨types, .mapped r⟩ frame).run s : Except Fault Literal × Lowering)
    with ⟨result, t⟩
  rw [hl] at hlowers
  obtain ⟨e, -, hexcused⟩ | ⟨w, -, -, hagree⟩ := hlowers
  · exact hexcused.elim
  revert hagree
  generalize ((e.require ⟨types, .mapped r⟩ frame).run s).1 = outcome
  rintro (- | fault)
  · rfl
  · rw [show r.twice.reword = id from rfl, Fault.mapMiss_id]

end Expr

/-! ## Models -/

/-- A computation that requires something of the variables that were there before leaves the models
behind in which that is so. -/
theorem Lower.Asserts.modelsOn_eq {α : Type} {net : Netlist} {x : Lower α} {p : Valuation → Prop}
    {post : α → Netlist → Prop} (hx : Lower.Asserts net x p post)
    (hp : ∀ v v' : Valuation, (∀ x < net.length, v' x = v x) → (p v' ↔ p v)) {s s' : Lowering}
    {required : List Literal} (hs : s.circuit.Fits net required) {a : α}
    (hrun : x.run s = (.ok a, s')) :
    s'.circuit.formula.modelsOn s.circuit.formula.numVars =
      {m | m ∈ s.circuit.formula.models ∧ p (Cnf.extend m)} := by
  obtain ⟨net', more, hnet, hfits, hmore, -⟩ := hx s required hs a s' hrun
  exact hs.modelsOn_eq hfits hnet hmore hp

namespace Expr

/-- **Requiring an expression is requiring its literal.** With any unrolled variables, in any frame
and any state, an expression can be required exactly if its literal can be made and required, and
otherwise both stop for the same reason. On a circuit that operations lead to, and with literals
that are there already, both leave the same models behind, cut to the variables that were there
before. -/
theorem require_eq_literal (types : TypeTable) (map : Unrolled) (e : Expr) (frame : Frame)
    (s : Lowering) :
    let setting : Setting := ⟨types, .mapped map.resolver⟩
    let whole := (e.require setting frame).run s
    let literal := (do
      Lower.build (Circuit.require (← e.toLiteral setting frame)) : Lower Unit).run s
    whole.1 = literal.1 ∧
      ∀ {options : GateOptions} {log : List Entry}, Session options log s.circuit →
        (∀ t name bit l, map.get? t name bit = some l → l.var < s.circuit.formula.numVars) →
        whole.1 = .ok () →
        whole.2.circuit.formula.modelsOn s.circuit.formula.numVars =
          literal.2.circuit.formula.modelsOn s.circuit.formula.numVars := by
  intro setting whole literal
  have hresult : whole.1 = literal.1 := result_require map.resolver types e frame s
  refine ⟨hresult, fun hs hmap hwhole => ?_⟩
  have hliteral : literal.1 = .ok () := hresult ▸ hwhole
  obtain ⟨net, required, h₀⟩ := hs.exists_explains
  rw [h₀.fits.numVars_eq] at hmap
  have hr := ready_resolver h₀.fits.constant hmap
  have htrace : ∀ v v' : Valuation, (∀ x < net.length, v' x = v x) →
      (e.truthAt types (map.resolver.trace (fun _ _ _ => false) v') frame = true ↔
        e.truthAt types (map.resolver.trace (fun _ _ _ => false) v) frame = true) := by
    intro v v' hsame
    rw [hr.within.trace_congr _ hsame]
  have hrun : (e.require setting frame).run s = (.ok (), whole.2) := Prod.ext hwhole rfl
  have hrun' : (e.requireTruth setting frame).run s = (.ok (), literal.2) := Prod.ext hliteral rfl
  rw [(asserts_require hr e frame).modelsOn_eq htrace h₀.fits hrun,
    (asserts_requireTruth hr e frame).modelsOn_eq htrace h₀.fits hrun']

/-- A conjunction of two variables, whose literal takes a gate that requiring it does not. -/
theorem require_eq_literal_conjunction :
    let e : Expr := .conjunction [.symbol "x" .bool, .symbol "y" .bool]
    let map := (Unrolled.empty.set 0 "x" 0 ⟨1, true⟩).set 0 "y" 0 ⟨2, true⟩
    let setting : Setting := ⟨.empty, .mapped map.resolver⟩
    ∃ c log s' t', Session {} log c ∧
      (∀ t name bit l, map.get? t name bit = some l → l.var < c.formula.numVars) ∧
      (e.require setting .phases).run { circuit := c } = (.ok (), s') ∧
      (do Lower.build (Circuit.require (← e.toLiteral setting .phases)) : Lower Unit).run
        { circuit := c } = (.ok (), t') ∧
      s'.circuit.formula.numVars = 3 ∧ t'.circuit.formula.numVars = 4 ∧
      s'.circuit.formula.modelsOn 3 = t'.circuit.formula.modelsOn 3 := by
  intro e map setting
  have hruns : ∃ c log s' t', Session {} log c ∧ c.formula.numVars = 3 ∧
      (e.require setting .phases).run { circuit := c } = (.ok (), s') ∧
      (do Lower.build (Circuit.require (← e.toLiteral setting .phases)) : Lower Unit).run
        { circuit := c } = (.ok (), t') ∧
      s'.circuit.formula.numVars = 3 ∧ t'.circuit.formula.numVars = 4 :=
    ⟨_, _, _, _, (Session.start.step .newVariable (by decide)).step .newVariable (by decide),
      rfl, rfl, rfl, rfl, rfl⟩
  obtain ⟨c, log, s', t', hs, hnum, hwhole, hliteral, hwholeVars, hliteralVars⟩ := hruns
  have hmap : ∀ t name bit l, map.get? t name bit = some l → l.var < c.formula.numVars := by
    intro t name bit l hl
    rw [hnum]
    simp only [map, Unrolled.get?_set] at hl
    split at hl
    · exact Option.some.inj hl ▸ by decide
    · split at hl
      · exact Option.some.inj hl ▸ by decide
      · simp [Unrolled.empty, Unrolled.get?] at hl
  refine ⟨c, log, s', t', hs, hmap, hwhole, hliteral, hwholeVars, hliteralVars, ?_⟩
  have hmodels := (require_eq_literal .empty map e .phases { circuit := c }).2 hs hmap
    (congrArg Prod.fst hwhole)
  rw [hwhole, hliteral, hnum] at hmodels
  exact hmodels

/-- With a literal that is not there yet, and where such a literal was required before, a gate may
take that literal's variable for its output. Requiring an expression and requiring its literal have
different gates, and then leave different models behind. -/
theorem exists_require_ne_literal :
    (∃ (c : Circuit) (log : List Entry) (s' t' : Lowering) (m : Fin 3 → Bool),
      let both : Expr := .conjunction [.symbol "p" .bool, .symbol "q" .bool]
      let either : Expr := .node (.connective .or) .bool [.symbol "p" .bool, .symbol "q" .bool]
      let e : Expr := .conjunction [both, .node .not .bool [.symbol "x" .bool], either]
      let map := ((Unrolled.empty.set 0 "p" 0 ⟨1, true⟩).set 0 "q" 0 ⟨2, true⟩).set
        0 "x" 0 ⟨3, true⟩
      let setting : Setting := ⟨.empty, .mapped map.resolver⟩
      Session {} log c ∧ c.formula.numVars = 3 ∧
      (e.require setting .phases).run { circuit := c } = (.ok (), s') ∧
      (do Lower.build (Circuit.require (← e.toLiteral setting .phases)) : Lower Unit).run
        { circuit := c } = (.ok (), t') ∧
      m ∈ s'.circuit.formula.modelsOn 3 ∧ m ∉ t'.circuit.formula.modelsOn 3) ∧
    (∃ (c : Circuit) (s' t' : Lowering) (m : Fin 3 → Bool),
      let e : Expr := .conjunction [.symbol "x" .bool, .symbol "y" .bool]
      let map := (Unrolled.empty.set 0 "x" 0 ⟨1, true⟩).set 0 "y" 0 ⟨2, true⟩
      let setting : Setting := ⟨.empty, .mapped map.resolver⟩
      c.Reached {} ∧ c.formula.numVars = 3 ∧
      (e.require setting .phases).run { circuit := c } = (.ok (), s') ∧
      (do Lower.build (Circuit.require (← e.toLiteral setting .phases)) : Lower Unit).run
        { circuit := c } = (.ok (), t') ∧
      m ∈ s'.circuit.formula.modelsOn 3 ∧ m ∉ t'.circuit.formula.modelsOn 3) := by
  refine ⟨?_, ?_⟩
  · refine ⟨_, _, _, _, fun _ => true, (Session.start.step .newVariable (by decide)).step
      .newVariable (by decide), rfl, rfl, rfl, ⟨fun i => i.val != 3, ?_, ?_⟩, ?_⟩
    · show Cnf.eval _ _ = true
      decide +kernel
    · decide
    · -- the first two conjuncts are folded, since one is the negation of the other
      have hunsat : ∀ v : Valuation, Cnf.eval ⟨5, #[[.top], [⟨3, false⟩, ⟨1, true⟩],
          [⟨3, false⟩, ⟨2, true⟩], [⟨1, false⟩, ⟨2, false⟩, ⟨3, true⟩], [⟨4, false⟩, ⟨1, false⟩],
          [⟨4, false⟩, ⟨2, false⟩], [⟨1, true⟩, ⟨2, true⟩, ⟨4, true⟩], [.bottom]]⟩ v = false := by
        intro v
        cases htop : v 0 <;>
          simp [Cnf.eval, Clause.eval, Literal.eval, Literal.top, Literal.bottom, htop]
      rintro ⟨m', hm', -⟩
      exact Bool.false_ne_true ((hunsat _).symm.trans hm')
  · refine ⟨_, _, _, fun _ => true, ((Circuit.Reached.start.step .newVariable).step
      .newVariable).step (.require ⟨3, false⟩), rfl, rfl, rfl, ⟨fun i => i.val != 3, ?_, ?_⟩, ?_⟩
    · show Cnf.eval _ _ = true
      decide +kernel
    · decide +kernel
    · have hunsat : ∀ v : Valuation, Cnf.eval ⟨4, #[[.top], [⟨3, false⟩], [⟨3, false⟩, ⟨1, true⟩],
          [⟨3, false⟩, ⟨2, true⟩], [⟨1, false⟩, ⟨2, false⟩, ⟨3, true⟩], [⟨3, true⟩]]⟩ v =
            false := by
        intro v
        cases hgate : v 3 <;> simp [Cnf.eval, Clause.eval, Literal.eval, hgate]
      rintro ⟨m', hm', -⟩
      exact Bool.false_ne_true ((hunsat _).symm.trans hm')

end Expr

end BitUnroll
