import BitUnroll.Proofs.Circuit.Values
import BitUnroll.Proofs.Lowering.Comparison

/-!
# The values of lowered expressions

What an expression is lowered to has, in every model, the truth value and the bits of the
expression, whatever literals the circuit was built on and whatever literals the resolver answers
with. The lowering is compared with one on the constants of their values.

## Main definitions

* `Resolver.valued`: a resolver that answers with the constants of its literals' values.

## Main statements

* `Expr.eval_of_toLiteral`, `Expr.bits_of_toWord`: the values of literals and words.
* `Expr.lowered_eq_meaning`: the models of a circuit in which an expression was lowered.
-/

namespace BitUnroll

/-- A resolver that answers with the constants of another one's literals under an assignment. -/
def Resolver.valued (r : Resolver) (v : Valuation) : Resolver where
  multiStep := r.multiStep
  resolve name bit t := (r.resolve name bit t).map fun l => .ofBool (l.eval v)

namespace Resolver

variable {r : Resolver} {v : Valuation}

@[simp] theorem resolve_valued (name : String) (bit t : Nat) : (r.valued v).resolve name bit t =
    (r.resolve name bit t).map fun l => .ofBool (l.eval v) := rfl

/-- The constants of values show the trace of the values. -/
theorem trace_valued (rest : Trace) {u : Valuation} (hu : u 0 = true) :
    (r.valued v).trace rest u = r.trace rest v := by
  funext name bit t
  simp only [trace, resolve_valued]
  cases r.resolve name bit t with
  | ok l => exact Literal.eval_ofBool hu _
  | error miss => rfl

/-- Constants are there from the beginning. -/
theorem ready_valued (r : Resolver) (v : Valuation) : (r.valued v).Ready [.constant] := by
  refine ⟨rfl, fun name bit t l hl => ?_⟩
  rw [resolve_valued] at hl
  cases hresolve : r.resolve name bit t <;> rw [hresolve] at hl
  · cases hl
  · exact Except.ok.inj hl ▸ Nat.zero_lt_one

/-- A resolver beside the constants of its values. -/
def sources (r : Resolver) (v : Valuation) : Sources where
  left := r
  right := r.valued v
  frames := Eq
  reword := id

theorem alike_sources (r : Resolver) (hv : v 0 = true) : (r.sources v).Alike (.values v) where
  lawful := Comparison.lawful_values hv
  answers w f f' hf phase name bit := by
    obtain rfl : f = f' := hf
    simp only [sources, resolve_valued]
    cases r.resolve name bit (phase.timeframe f) with
    | ok l => exact .ok (Comparison.literals_values v w l)
    | error miss => exact .error miss

theorem shifts_sources (r : Resolver) (v : Valuation) : (r.sources v).Shifts :=
  Sources.shifts_of_eq rfl rfl

end Resolver

/-- A computation that succeeds beside the constants has a result there as well. -/
theorem Sources.Lowers.of_ok {S : Sources} {v : Valuation} {α β : Type} {x : Lower α} {y : Lower β}
    {post : Prop → α → β → Prop} {s s' : Lowering} {a : α}
    (h : S.Lowers (.values v) (s.circuit.formula.eval v = true) x y post)
    (hs : s.circuit.Explained) (hrun : x.run s = (.ok a, s')) :
    s'.circuit.Explained ∧ ∃ w : Prop, (w → s.circuit.formula.eval v = true) ∧
      (s'.circuit.formula.eval v = true → w) ∧
      ∃ b t, y.run { circuit := .initial {} } = (.ok b, t) ∧ post w a b := by
  have h := h s { circuit := .initial {} } ⟨hs, fun h => h, rfl⟩
  rw [hrun] at h
  obtain ⟨e, he, -⟩ | ⟨w, hle, ⟨hexplained, hw, -⟩, hagree⟩ := h
  · cases he
  refine ⟨hexplained, w, hle, hw, ?_⟩
  rcases hy : (y.run { circuit := .initial {} } : Except Fault β × Lowering) with ⟨r, t⟩
  rw [hy] at hagree
  cases hagree with
  | ok hab => exact ⟨_, t, rfl, hab⟩

namespace Expr

variable {types : TypeTable} {r : Resolver} {v : Valuation} {frame : Frame} {s s' : Lowering}

/-- On constants, an expression is lowered to the constants of its truth value. -/
theorem truthAt_of_valued {e : Expr} (rest : Trace) {p : Bool} {t : Lowering}
    (hrun : (e.toLiteral ⟨types, .mapped (r.valued v)⟩ frame).run { circuit := .initial {} } =
      (.ok (.ofBool p), t)) : p = e.truthAt types (r.trace rest v) frame := by
  obtain ⟨keys, hfits, hpost⟩ := (faithful types (r.valued v) rest e).truth _ frame
    (Resolver.ready_valued r v) { circuit := .initial {} } [] (Circuit.fits_initial {})
  rw [hrun] at hfits hpost
  have hholds := Netlist.holds_settle hfits.ordered v
  have hu := hfits.eval_constant hholds
  have hvalue := (hpost _ rfl).eval_eq _ hholds
  rwa [Literal.eval_ofBool hu, Resolver.trace_valued rest hu] at hvalue

/-- On constants, an expression is lowered to the constants of its bits. -/
theorem bitsAt_of_valued {e : Expr} (rest : Trace) {ps : Bits} {t : Lowering}
    (hrun : (e.toWord ⟨types, .mapped (r.valued v)⟩ frame).run { circuit := .initial {} } =
      (.ok (ps.map .ofBool), t)) : ps = e.bitsAt types (r.trace rest v) frame := by
  obtain ⟨keys, hfits, hpost⟩ := (faithful types (r.valued v) rest e).word _ frame
    (Resolver.ready_valued r v) { circuit := .initial {} } [] (Circuit.fits_initial {})
  rw [hrun] at hfits hpost
  have hholds := Netlist.holds_settle hfits.ordered v
  have hu := hfits.eval_constant hholds
  have hbits := (hpost _ rfl).bits_eq _ hholds
  rw [Resolver.trace_valued rest hu] at hbits
  rw [← hbits, Word.bits_map_ofBool hu]

/-- In every model, the literal of an expression has its truth value. -/
theorem eval_of_toLiteral (e : Expr) (hs : s.circuit.Explained) {l : Literal}
    (hrun : (e.toLiteral ⟨types, .mapped r⟩ frame).run s = (.ok l, s')) :
    s'.circuit.Explained ∧
      ∀ v, s'.circuit.formula.eval v = true → s.circuit.formula.eval v = true ∧
        ∀ rest, l.eval v = e.truthAt types (r.trace rest v) frame := by
  have hrunOn : ∀ {v : Valuation}, v 0 = true → _ := fun {v} hv =>
    ((e.compares (r.alike_sources hv) types (.inl (r.shifts_sources v))).truth _ frame frame
      rfl).of_ok hs hrun
  have hexplained := (hrunOn (v := fun _ => true) rfl).1
  refine ⟨hexplained, fun v hv => ?_⟩
  obtain ⟨-, w, hbefore, hw, _, t, hright, p, rfl, hp⟩ := hrunOn (hexplained.constant v hv)
  refine ⟨hbefore (hw hv), fun rest => ?_⟩
  rw [hp (hw hv), truthAt_of_valued rest hright]

/-- The word of an expression has as many bits as the expression, and in every model its bits. -/
theorem bits_of_toWord (e : Expr) (hs : s.circuit.Explained) {w : Word}
    (hrun : (e.toWord ⟨types, .mapped r⟩ frame).run s = (.ok w, s')) :
    s'.circuit.Explained ∧
      (∀ v, v 0 = true → ∀ rest, w.length = (e.bitsAt types (r.trace rest v) frame).length) ∧
      ∀ v, s'.circuit.formula.eval v = true → s.circuit.formula.eval v = true ∧
        ∀ rest, w.bits v = e.bitsAt types (r.trace rest v) frame := by
  have hrunOn : ∀ {v : Valuation}, v 0 = true → _ := fun {v} hv =>
    ((e.compares (r.alike_sources hv) types (.inl (r.shifts_sources v))).word _ frame frame
      rfl).of_ok hs hrun
  have hexplained := (hrunOn (v := fun _ => true) rfl).1
  refine ⟨hexplained, fun v hv rest => ?_, fun v hv => ?_⟩
  · obtain ⟨-, holds, -, -, u, t, hright, hu⟩ := hrunOn hv
    obtain ⟨ps, rfl, hlength, -⟩ := Comparison.exists_bits_of_words hu
    rw [← hlength, bitsAt_of_valued rest hright]
  · obtain ⟨-, holds, hbefore, hholds, u, t, hright, hu⟩ := hrunOn (hexplained.constant v hv)
    obtain ⟨ps, rfl, -, hps⟩ := Comparison.exists_bits_of_words hu
    refine ⟨hbefore (hholds hv), fun rest => ?_⟩
    rw [hps (hholds hv), bitsAt_of_valued rest hright]

/-- **Lowered expressions mean what the expressions mean.** On a circuit that operations on any
literals lead to, and with variables unrolled to any literals, lower any expression in any frame. If
a literal or a word is handed out, it has in every model the truth value or the bits of the
expression, over every trace with the values of the variables' literals. -/
theorem lowered_eq_meaning {options : GateOptions} (hs : s.circuit.Reached options)
    (types : TypeTable) (map : Unrolled) (e : Expr) (frame : Frame) {v : Valuation} {trace : Trace}
    (htrace : ∀ t name bit l, map.get? t name bit = some l → l.eval v = trace name bit t) :
    (∀ l s', (e.toLiteral ⟨types, .mapped map.resolver⟩ frame).run s = (.ok l, s') →
      s'.circuit.formula.eval v = true → l.eval v = e.truthAt types trace frame) ∧
    (∀ w s', (e.toWord ⟨types, .mapped map.resolver⟩ frame).run s = (.ok w, s') →
      s'.circuit.formula.eval v = true → w.bits v = e.bitsAt types trace frame) := by
  have htrace := trace_resolver htrace
  constructor
  · intro l s' hrun hv
    obtain ⟨-, hvalue⟩ := e.eval_of_toLiteral hs.explained hrun
    rw [(hvalue v hv).2 trace, htrace]
  · intro w s' hrun hv
    obtain ⟨-, -, hbits⟩ := e.bits_of_toWord hs.explained hrun
    rw [(hbits v hv).2 trace, htrace]

/-- A variable that is true now and one timeframe later, where the variables of the circuit are its
literals in the two timeframes. -/
theorem lowered_eq_meaning_delay :
    let x : Expr := .symbol "x" .bool
    let later : Expr := .node (.temporal .delay) .bool [.constant 1 .natural, .absent, x]
    let e : Expr := .conjunction [x, later]
    let map : Unrolled := (Unrolled.empty.set 0 "x" 0 ⟨1, true⟩).set 1 "x" 0 ⟨2, true⟩
    ∀ trace : Trace, trace "x" 0 0 = true → trace "x" 0 1 = false →
      ∃ c, Session {} [⟨.newVariable, some ⟨1, true⟩⟩, ⟨.newVariable, some ⟨2, true⟩⟩] c ∧
        ∃ s', (e.toLiteral ⟨.empty, .mapped map.resolver⟩ (.step 0)).run { circuit := c } =
            (.ok ⟨3, true⟩, s') ∧
          s'.circuit.formula.eval (fun x => x ≤ 1) = true ∧
          e.truthAt .empty trace (.step 0) = false := by
  intro x later e map trace hnow hlater
  have hs : Session {} [⟨.newVariable, some ⟨1, true⟩⟩, ⟨.newVariable, some ⟨2, true⟩⟩] _ :=
    (Session.start.step .newVariable (by decide)).step .newVariable (by decide)
  have hbits : ∀ t name bit l, map.get? t name bit = some l →
      (t = 1 ∧ name = "x" ∧ bit = 0 ∧ l = ⟨2, true⟩) ∨
        (t = 0 ∧ name = "x" ∧ bit = 0 ∧ l = ⟨1, true⟩) := by
    intro t name bit l hl
    rw [Unrolled.get?_set, Unrolled.get?_set] at hl
    split at hl
    · rename_i h
      exact .inl ⟨h.1.symm, h.2.1.symm, h.2.2.symm, (Option.some.inj hl).symm⟩
    · split at hl
      · rename_i h
        exact .inr ⟨h.1.symm, h.2.1.symm, h.2.2.symm, (Option.some.inj hl).symm⟩
      · simp [Unrolled.empty, Unrolled.get?] at hl
  have htrace : ∀ t name bit l, map.get? t name bit = some l →
      l.eval (fun x => decide (x ≤ 1)) = trace name bit t := by
    intro t name bit l hl
    rcases hbits t name bit l hl with ⟨rfl, rfl, rfl, rfl⟩ | ⟨rfl, rfl, rfl, rfl⟩
    · exact hlater.symm
    · exact hnow.symm
  have hvalue := (lowered_eq_meaning (s := { circuit := _ }) hs.reached .empty map e (.step 0) htrace).1
  refine ⟨_, hs, _, rfl, by decide +kernel, ?_⟩
  exact (hvalue _ _ rfl (by decide +kernel)).symm

end Expr

end BitUnroll
