import BitUnroll.Proofs.Circuit.Values
import BitUnroll.Proofs.Lowering.Requirements

/-!
# Requirements that are refused

Requiring a conjunction requires its conjuncts one by one. Where one of them is refused, those
before it stay required, and nothing else is: what was added for the refused one are gates, which
leave the values of older variables free. So from what a refused requirement leaves behind, exactly
those models can be read in which the earlier conjuncts are true.

## Main definitions

* `Expr.conjuncts`: the conjuncts of an expression, at any depth of nested conjunctions.
* `Cnf.modelsOn`: the models of a formula, cut to its first variables.

## Main statements

* `Expr.require_eq_forM`: requiring an expression requires its conjuncts in order.
* `Expr.modelsOn_of_refused`: what a refused requirement leaves behind.
-/

namespace BitUnroll

/-- The values of the first variables in the models of a formula. -/
def Cnf.modelsOn (f : Cnf) (n : Nat) : Set (Fin n → Bool) := fun m =>
  ∃ m' ∈ f.models, ∀ x < n, Cnf.extend m' x = Cnf.extend m x

namespace Expr

mutual

/-- The conjuncts of an expression: those of its operands if it is a conjunction, in order, and else
the expression itself. -/
def conjuncts : Expr → List Expr
  | .node (.connective .and) _ es => conjunctsAll es
  | e => [e]

/-- The conjuncts of expressions, in order. -/
def conjunctsAll : List Expr → List Expr
  | [] => []
  | e :: es => conjuncts e ++ conjunctsAll es

end

variable {types : TypeTable} {r : Resolver} {rest : Trace} {net : Netlist} {frame : Frame}
  {e : Expr} {s s' : Lowering}

/-- What is no conjunction is its own only conjunct. -/
theorem conjuncts_of_ne (h : e.kind ≠ .connective .and) : e.conjuncts = [e] := by
  obtain ⟨kind, ty, es⟩ := e
  cases kind with
  | connective op =>
    cases op with
    | and => exact absurd rfl h
    | or | xor => rfl
  | symbol | nextSymbol | constant | truth | nil | not | implies | equality | ite | complement
  | negate | binary | relation | extractBit | extractBits | concat | cast | temporal => rfl

/-- With a resolver, what is no conjunction is required by its truth value. -/
theorem require_of_ne (h : e.kind ≠ .connective .and) (frame : Frame) :
    e.require ⟨types, .mapped r⟩ frame = e.requireTruth ⟨types, .mapped r⟩ frame := by
  induction e using require_induction with
  | conjunction ty es _ => exact absurd rfl h
  | equality ty lhs rhs => exact require_equality ty lhs rhs frame
  | other e hrequire => exact hrequire _ frame

/-- Requiring an expression requires the truth values of its conjuncts, in order. -/
theorem require_eq_forM (e : Expr) (frame : Frame) :
    e.require ⟨types, .mapped r⟩ frame =
      e.conjuncts.forM fun x => x.requireTruth ⟨types, .mapped r⟩ frame := by
  induction e using Expr.induction with
  | node kind ty es ih =>
    by_cases hkind : kind = .connective .and
    · subst hkind
      show requireAll _ es frame = (conjunctsAll es).forM _
      induction es with
      | nil => rfl
      | cons e es ihs =>
        obtain ⟨he, hes⟩ := List.forall_mem_cons.1 ih
        rw [requireAll, conjunctsAll, he, ihs hes]
        exact List.forM_append.symm
    · have hne : (node kind ty es).kind ≠ .connective .and := hkind
      rw [require_of_ne hne, conjuncts_of_ne hne]
      exact bind_pure_unit.symm

end Expr

/-- A loop that stops does so in one of its rounds, after those before it succeeded. -/
theorem Lower.exists_round_of_error {α : Type} {f : α → Lower Unit} {xs : List α} {fault : Fault}
    {s s' : Lowering} (h : (xs.forM f).run s = (.error fault, s')) :
    ∃ done x rest t, xs = done ++ x :: rest ∧ (done.forM f).run s = (.ok (), t) ∧
      (f x).run t = (.error fault, s') := by
  induction xs generalizing s with
  | nil => cases h
  | cons x xs ih =>
    have hcons : ∀ ys : List α, (x :: ys).forM f = f x >>= fun _ => ys.forM f := fun _ => rfl
    rw [hcons, run_bind] at h
    rcases hx : ((f x).run s : Except Fault Unit × Lowering) with ⟨e | u, t⟩ <;> rw [hx] at h
    · exact ⟨[], x, xs, s, rfl, rfl, hx.trans h⟩
    · obtain ⟨done, y, rest, t', rfl, hdone, hy⟩ := ih h
      refine ⟨x :: done, y, rest, t', rfl, ?_, hy⟩
      rw [hcons, run_bind, hx]
      exact hdone

/-- Where a circuit has grown and something more is required, its models, cut to the variables that
were there before, are the models from before that meet the requirements. -/
theorem Circuit.Fits.modelsOn_eq {c c' : Circuit} {net net' : Netlist}
    {required more : List Literal} {p : Valuation → Prop} (h : c.Fits net required)
    (h' : c'.Fits net' (required ++ more)) (hnet : net <+: net')
    (hmore : ∀ v, net'.Holds v → ((∀ l ∈ more, l.eval v = true) ↔ p v))
    (hp : ∀ v v' : Valuation, (∀ x < net.length, v' x = v x) → (p v' ↔ p v)) :
    c'.formula.modelsOn c.formula.numVars =
      {m | m ∈ c.formula.models ∧ p (Cnf.extend m)} := by
  ext m
  have hnum := h.numVars_eq
  constructor
  · rintro ⟨m', hm', hsame⟩
    obtain ⟨hholds, hrequired⟩ := (h'.eval_iff _).1 hm'
    rw [List.forall_mem_append] at hrequired
    refine ⟨?_, (hp _ _ (hnum ▸ hsame)).1 ((hmore _ hholds).1 hrequired.2)⟩
    rw [Cnf.mem_models, ← h.formula_scoped.eval_congr hsame, h.eval_iff]
    exact ⟨hholds.of_isPrefix hnet, hrequired.1⟩
  · rintro ⟨hm, hpm⟩
    obtain ⟨hholds, hrequired⟩ := (h.eval_iff _).1 hm
    obtain ⟨new, rfl⟩ := hnet
    obtain ⟨v, hsame, hv⟩ := Netlist.exists_holds_append h'.ordered hholds
    have hold : ∀ l ∈ required, l.eval v = true := by
      intro l hl
      rw [Literal.eval, hsame _ (h.required_lt l hl)]
      exact hrequired l hl
    have heval : c'.formula.eval v = true := (h'.eval_iff v).2
      ⟨hv, List.forall_mem_append.2 ⟨hold, (hmore v hv).2 ((hp _ _ hsame).2 hpm)⟩⟩
    refine ⟨fun i => v i, h'.formula_scoped.restrict_mem_models.2 heval, fun x hx => ?_⟩
    have hx' : x < c'.formula.numVars := by
      rw [h'.numVars_eq, List.length_append]
      omega
    rw [Cnf.extend_restrict v hx', hsame x (hnum ▸ hx)]

namespace Expr

variable {types : TypeTable} {r : Resolver} {rest : Trace} {net : Netlist} {frame : Frame}
  {e : Expr} {s s' : Lowering}

/-- Requiring expressions by their truth values requires these. -/
theorem asserts_forM_requireTruth (hr : r.Ready net) (xs : List Expr) (frame : Frame) :
    Lower.Asserts net (xs.forM fun x => x.requireTruth ⟨types, .mapped r⟩ frame)
      (fun v => ∀ x ∈ xs, x.truthAt types (r.trace rest v) frame = true) fun _ _ => True := by
  induction xs generalizing net with
  | nil =>
    have hnone : Lower.AddsGates net (pure () : Lower Unit) fun _ _ => True := .pure trivial
    exact hnone.asserts.congr fun v _ => by simp
  | cons x xs ih =>
    have hx : Lower.Asserts net (x.requireTruth ⟨types, .mapped r⟩ frame)
        (fun v => x.truthAt types (r.trace rest v) frame = true) fun _ _ => True :=
      asserts_requireTruth hr x frame
    refine (hx.bind fun _ net' h _ => ih (hr.mono h)).congr fun v _ => ?_
    rw [List.forall_mem_cons]

/-- An expression whose truth value cannot be required has no literal, for the same reason. -/
theorem run_toLiteral_of_requireTruth {setting : Setting} {fault : Fault}
    (h : (e.requireTruth setting frame).run s = (.error fault, s')) :
    (e.toLiteral setting frame).run s = (.error fault, s') := by
  unfold requireTruth at h
  rw [run_bind] at h
  rcases hl : ((e.toLiteral setting frame).run s : Except Fault Literal × Lowering)
    with ⟨fault' | l, t⟩ <;> rw [hl] at h <;> cases h
  rfl

/-- **A refused requirement leaves its earlier conjuncts behind.** On a circuit that operations
lead to, and with variables unrolled to literals that are there already, require an expression that
is refused. One of its conjuncts has no literal, for that reason, after those before it were
required. Cut to the variables that were there before, the models are then exactly those models
from before in which the earlier conjuncts are true. So an expression that is no conjunction, or
whose first conjunct is refused, constrains nothing. -/
theorem modelsOn_of_refused {options : GateOptions} {log : List Entry}
    (hs : Session options log s.circuit) (types : TypeTable) {map : Unrolled}
    (hmap : ∀ t name bit l, map.get? t name bit = some l → l.var < s.circuit.formula.numVars)
    (e : Expr) (frame : Frame) {error : LoweringError}
    (hrun : (e.require ⟨types, .mapped map.resolver⟩ frame).run s = (.error (.refused error), s')) :
    ∃ done x rest t, e.conjuncts = done ++ x :: rest ∧
      (done.forM fun d => d.requireTruth ⟨types, .mapped map.resolver⟩ frame).run s = (.ok (), t) ∧
      (x.toLiteral ⟨types, .mapped map.resolver⟩ frame).run t = (.error (.refused error), s') ∧
      ∀ other : Trace, s'.circuit.formula.modelsOn s.circuit.formula.numVars =
        {m | m ∈ s.circuit.formula.models ∧ ∀ d ∈ done,
          d.truthAt types (map.resolver.trace other (Cnf.extend m)) frame = true} := by
  obtain ⟨net, required, h₀⟩ := hs.exists_explains
  rw [h₀.fits.numVars_eq] at hmap
  have hr := ready_resolver h₀.fits.constant hmap
  rw [require_eq_forM] at hrun
  obtain ⟨done, x, rest, t, hconjuncts, hdone, hx⟩ := Lower.exists_round_of_error hrun
  have hx := run_toLiteral_of_requireTruth hx
  refine ⟨done, x, rest, t, hconjuncts, hdone, hx, fun other => ?_⟩
  obtain ⟨net₁, more, h₁, hfits₁, hmore, -⟩ :=
    asserts_forM_requireTruth hr done frame s required h₀.fits () t hdone
  obtain ⟨keys, hfits₂, -⟩ :=
    (faithful types map.resolver other x).truth net₁ frame (hr.mono h₁) t _ hfits₁
  rw [hx] at hfits₂
  refine h₀.fits.modelsOn_eq hfits₂ (h₁.trans (List.prefix_append ..))
    (fun v hv => hmore v (hv.of_isPrefix (List.prefix_append ..))) fun v v' hsame => ?_
  rw [hr.within.trace_congr other hsame]

/-- A conjunction of a variable and an absent expression is refused, and the variable stays
required. -/
theorem modelsOn_of_refused_conjunction :
    let e : Expr := .conjunction [.symbol "x" .bool, .absent]
    let map : Unrolled := Unrolled.empty.set 0 "x" 0 ⟨1, true⟩
    ∃ c s', Session {} [⟨.newVariable, some ⟨1, true⟩⟩] c ∧
      (e.require ⟨.empty, .mapped map.resolver⟩ .phases).run { circuit := c } =
        (.error (.refused (.unsupported .nil .boolean)), s') ∧
      s'.circuit.formula.modelsOn c.formula.numVars =
        {m | m ∈ c.formula.models ∧ Cnf.extend m 1 = true} := by
  intro e map
  have hruns : ∃ c s', Session {} [⟨.newVariable, some ⟨1, true⟩⟩] c ∧ c.formula.numVars = 2 ∧
      ((symbol "x" .bool).toLiteral ⟨.empty, .mapped map.resolver⟩ .phases).run { circuit := c } =
        (.ok ⟨1, true⟩, { circuit := c, reads := #[⟨"x", 0, 0⟩] }) ∧
      (e.require ⟨.empty, .mapped map.resolver⟩ .phases).run { circuit := c } =
        (.error (.refused (.unsupported .nil .boolean)), s') :=
    ⟨_, _, Session.start.step .newVariable (by decide), rfl, rfl, rfl⟩
  obtain ⟨c, s', hs, hnum, hx, hrun⟩ := hruns
  have hmap : ∀ t name bit l, map.get? t name bit = some l → l.var < c.formula.numVars := by
    intro t name bit l hl
    rw [Unrolled.get?_set] at hl
    split at hl
    · rw [hnum, ← Option.some.inj hl]
      decide
    · simp [Unrolled.empty, Unrolled.get?] at hl
  obtain ⟨done, y, rest, t, hconjuncts, hdone, hy, hmodels⟩ :=
    modelsOn_of_refused (s := { circuit := c }) hs .empty hmap e .phases hrun
  refine ⟨c, s', hs, hrun, ?_⟩
  have hconjuncts : [symbol "x" .bool, absent] = done ++ y :: rest := hconjuncts
  rcases done with _ | ⟨d, _ | ⟨d', done⟩⟩
  · -- the variable has a literal, so it is not the conjunct that is refused
    obtain rfl := (List.cons.inj hconjuncts).1
    cases hdone
    rw [hx] at hy
    cases hy
  · obtain rfl := (List.cons.inj hconjuncts).1
    have htruth : ∀ v, (symbol "x" .bool).truthAt .empty (map.resolver.trace (fun _ _ _ => false) v)
        .phases = ([v 1 == true] == [true]) := fun v => rfl
    rw [hmodels fun _ _ _ => false]
    simp [htruth]
  · simp at hconjuncts

/-- What is refused may still constrain something: by the conjuncts before the one that is refused,
or, where a variable has a literal that is not there yet or such a literal was required, by a gate
whose output becomes that literal. -/
theorem exists_refused_that_constrains :
    (∃ (c : Circuit) (log : List Entry) (s' : Lowering) (m : Fin c.formula.numVars → Bool),
      let e : Expr := .conjunction [.symbol "x" .bool, .absent]
      let map : Unrolled := Unrolled.empty.set 0 "x" 0 ⟨1, true⟩
      Session {} log c ∧
      (e.require ⟨.empty, .mapped map.resolver⟩ .phases).run { circuit := c } =
        (.error (.refused (.unsupported .nil .boolean)), s') ∧
      m ∈ c.formula.models ∧ m ∉ s'.circuit.formula.modelsOn c.formula.numVars) ∧
    (∃ (c : Circuit) (log : List Entry) (s' : Lowering) (m : Fin c.formula.numVars → Bool),
      let same : Expr := .node (.equality false) .bool [.symbol "x" .bool, .symbol "y" .bool]
      let e : Expr := .node (.connective .or) .bool [same, .absent]
      let map : Unrolled := (Unrolled.empty.set 0 "x" 0 ⟨2, true⟩).set 0 "y" 0 ⟨1, true⟩
      Session {} log c ∧
      (e.require ⟨.empty, .mapped map.resolver⟩ .phases).run { circuit := c } =
        (.error (.refused (.unsupported .nil .boolean)), s') ∧
      m ∈ c.formula.models ∧ m ∉ s'.circuit.formula.modelsOn c.formula.numVars) ∧
    (∃ (c : Circuit) (s' : Lowering) (m : Fin c.formula.numVars → Bool),
      let same : Expr := .node (.equality false) .bool [.symbol "x" .bool, .symbol "y" .bool]
      let e : Expr := .node (.connective .or) .bool [same, .absent]
      let map : Unrolled := (Unrolled.empty.set 0 "x" 0 ⟨2, true⟩).set 0 "y" 0 ⟨1, true⟩
      c.Reached {} ∧ c.formula.numVars = 3 ∧
      (e.require ⟨.empty, .mapped map.resolver⟩ .phases).run { circuit := c } =
        (.error (.refused (.unsupported .nil .boolean)), s') ∧
      m ∈ c.formula.models ∧ m ∉ s'.circuit.formula.modelsOn c.formula.numVars) := by
  refine ⟨?_, ?_, ?_⟩
  · refine ⟨_, _, _, fun i => i.val == 0, Session.start.step .newVariable (by decide), rfl, ?_, ?_⟩
    · show Cnf.eval _ _ = true
      decide +kernel
    · rintro ⟨m', hm', hsame⟩
      have hx : Cnf.extend m' 1 = false := hsame 1 (by decide)
      have hm' : Cnf.eval ⟨2, #[[.top], [⟨1, true⟩]]⟩ (Cnf.extend m') = true := hm'
      simp [Cnf.eval, Clause.eval, Literal.eval, hx] at hm'
  · refine ⟨_, _, _, fun _ => true, Session.start.step .newVariable (by decide), rfl, ?_, ?_⟩
    · show Cnf.eval _ _ = true
      decide +kernel
    · rintro ⟨m', hm', hsame⟩
      have hy : Cnf.extend m' 1 = true := hsame 1 (by decide)
      have hm' : Cnf.eval ⟨3, #[[.top],
          [⟨2, false⟩, ⟨1, true⟩, ⟨2, true⟩], [⟨2, false⟩, ⟨1, false⟩, ⟨2, false⟩],
          [⟨2, true⟩, ⟨1, false⟩, ⟨2, true⟩], [⟨2, true⟩, ⟨1, true⟩, ⟨2, false⟩]]⟩
          (Cnf.extend m') = true := hm'
      cases hx : Cnf.extend m' 2 <;> simp [Cnf.eval, Clause.eval, Literal.eval, hx, hy] at hm'
  · refine ⟨_, _, fun i => i.val != 1, ((Circuit.Reached.start.step .newVariable).step
      .newVariable).step (.require ⟨3, false⟩), rfl, rfl, ?_, ?_⟩
    · show Cnf.eval _ _ = true
      decide +kernel
    · rintro ⟨m', hm', hsame⟩
      have hy : Cnf.extend m' 1 = false := hsame 1 (by decide)
      have hx : Cnf.extend m' 2 = true := hsame 2 (by decide)
      have hm' : Cnf.eval ⟨4, #[[.top], [⟨3, false⟩],
          [⟨3, false⟩, ⟨1, true⟩, ⟨2, true⟩], [⟨3, false⟩, ⟨1, false⟩, ⟨2, false⟩],
          [⟨3, true⟩, ⟨1, false⟩, ⟨2, true⟩], [⟨3, true⟩, ⟨1, true⟩, ⟨2, false⟩]]⟩
          (Cnf.extend m') = true := hm'
      cases hgate : Cnf.extend m' 3 <;>
        simp [Cnf.eval, Clause.eval, Literal.eval, hx, hy, hgate] at hm'

end Expr

end BitUnroll
