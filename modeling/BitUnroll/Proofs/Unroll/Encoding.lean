import BitUnroll.Proofs.Script.Conditions
import BitUnroll.Proofs.Unroll.Allocation
import BitUnroll.Proofs.Unroll.Steps
import Mathlib.Data.List.Forall2

/-!
# What encodings say

Where a script can be unrolled, the formula says that the variables' literals show an execution of
the selected transition system that satisfies the constraints. Nothing else is required: each such
execution is shown by a model, and conversions only name bits that are determined by it.

## Main definitions

* `Encoding.Shows`: the variables' literals have the values of a trace.
* `Script.Admits`: a trace is an execution that the commands of a text allow.

## Main statements

* `Unrolling.asserts_encode`: what all steps of an unrolling require.
* `Script.encode_exact`: the models of an encoding are the executions of its script.
-/

namespace BitUnroll

/-- The bits of the variables of a system. -/
theorem TransitionSystem.exists_mem_varWidths {ts : TransitionSystem} {types : TypeTable}
    {name : String} {bit : Nat} : (∃ width, (name, width) ∈ ts.varWidths types ∧ bit < width) ↔
      ∃ ty, (name, ty) ∈ ts.vars ∧ bit < types.width ty := by
  simp only [varWidths, List.mem_filter, List.mem_map, decide_eq_true_eq]
  constructor
  · rintro ⟨width, ⟨⟨⟨other, ty⟩, hmem, heq⟩, -⟩, hbit⟩
    cases heq
    exact ⟨ty, hmem, hbit⟩
  · rintro ⟨ty, hmem, hbit⟩
    exact ⟨types.width ty, ⟨⟨(name, ty), hmem, rfl⟩, by omega⟩, hbit⟩

/-- The literals of the variables have the values of a trace. -/
def Encoding.Shows (e : Encoding) (v : Valuation) (trace : Trace) : Prop :=
  ∀ t name bit l, e.map.get? t name bit = some l → l.eval v = trace name bit t

/-- The commands of a text allow a trace over a number of timeframes. All conditions on the first
state of the selected module are true in the first step, all of its conditions on transitions in
each step, and each constraint is true in its own frame. -/
structure Script.Admits (s : Script) (text : String) (timeframes : Nat) (trace : Trace) :
    Prop where
  init : ∀ e ∈ conditions .init s.selected (commands text),
    e.truthAt s.types trace (.step 0) = true
  trans : ∀ t, t + 1 < timeframes → ∀ e ∈ conditions .trans s.selected (commands text),
    e.truthAt s.types trace (.step t) = true
  constraints : ∀ c ∈ s.constraints, c.expr.truthAt s.types trace c.frame = true

instance (s : Script) (text : String) (timeframes : Nat) (trace : Trace) :
    Decidable (s.Admits text timeframes trace) :=
  decidable_of_iff
    ((∀ e ∈ Script.conditions .init s.selected (Script.commands text),
        e.truthAt s.types trace (.step 0) = true) ∧
      (∀ t < timeframes - 1, ∀ e ∈ Script.conditions .trans s.selected (Script.commands text),
        e.truthAt s.types trace (.step t) = true) ∧
      ∀ c ∈ s.constraints, c.expr.truthAt s.types trace c.frame = true)
    ⟨fun ⟨hinit, htrans, hconstraints⟩ =>
      ⟨hinit, fun t ht => htrans t (by omega), hconstraints⟩,
    fun ⟨hinit, htrans, hconstraints⟩ =>
      ⟨hinit, fun t ht => htrans t (by omega), hconstraints⟩⟩

namespace Unrolling

variable {u : Unrolling} {net : Netlist}

/-- What an unrolling asks of a trace. -/
structure Asks (u : Unrolling) (ts : TransitionSystem) (s : Script) (trace : Trace) : Prop where
  init : ts.init.truthAt u.types trace (.step 0) = true
  trans : ∀ t ∈ List.range (u.timeframes - 1), ts.trans.truthAt u.types trace (.step t) = true
  constraints : ∀ c ∈ s.constraints.toList, c.expr.truthAt u.types trace c.frame = true

/-- An unrolling requires what it asks of the trace of its literals. -/
theorem asserts_encode (hr : u.map.resolver.Ready net) (rest : Trace) (ts : TransitionSystem)
    (s : Script) :
    Step.Asserts net (u.encode ts s) (fun v => u.Asks ts s (u.map.resolver.trace rest v))
      fun ks net' => List.Forall₂
        (fun c k => c.Denotes u.types (u.map.resolver.trace rest) k net')
        s.conversions.toList ks := by
  have hinit := asserts_require hr rest .init ts.init (.step 0)
  have htrans : ∀ net', net <+: net' → Step.Asserts net'
      ((List.range (u.timeframes - 1)).forM fun t => u.require .trans ts.trans (.step t))
      (fun v => ∀ t ∈ List.range (u.timeframes - 1),
        ts.trans.truthAt u.types (u.map.resolver.trace rest v) (.step t) = true)
      fun _ _ => True := fun net' h => Step.asserts_forM _ fun t net'' h' =>
    asserts_require (hr.mono (h.trans h')) rest .trans ts.trans (.step t)
  have hconvert : ∀ net', net <+: net' → Step.Asserts net'
      (s.conversions.toList.mapM u.convert) (fun _ => True) fun ks net'' =>
        List.Forall₂ (fun c k => c.Denotes u.types (u.map.resolver.trace rest) k net'')
          s.conversions.toList ks := fun net' h => Step.asserts_mapM _
    (fun c net'' h' => asserts_convert (hr.mono (h.trans h')) rest c)
    fun c k net₁ net₂ h₁ hk => hk.mono h₁
  refine (hinit.bind fun _ net₁ h₁ _ => (htrans net₁ h₁).bind fun _ net₂ h₂ _ =>
    (asserts_requireFrom (hr.mono (h₁.trans h₂)) rest 1 s.constraints.toList).bind
      fun _ net₃ h₃ _ => hconvert net₃ ((h₁.trans h₂).trans h₃)).congr fun v _ => ?_
  constructor
  · rintro ⟨h₁, h₂, h₃, -⟩
    exact ⟨h₁, h₂, h₃⟩
  · rintro ⟨h₁, h₂, h₃⟩
    exact ⟨h₁, h₂, h₃, trivial⟩

end Unrolling

namespace Script

variable {s : Script} {text : String} {config : Config} {e : Encoding} {onRefusal : OnRefusal}

/-- What an unrolling of the selected system asks is what the commands of the text allow. -/
theorem asks_iff_admits (hs : parse text = .ok s) {ts : TransitionSystem}
    (hts : s.system = .ok ts) {u : Unrolling} (hu : u.types = s.types) {trace : Trace} :
    u.Asks ts s trace ↔ s.Admits text u.timeframes trace := by
  obtain ⟨hinit, htrans⟩ := system_parse hs hts
  have hall : ∀ (es : List Expr) (frame : Frame),
      (conjoinAll (.truth true) es).truthAt s.types trace frame = true ↔
        ∀ e ∈ es, e.truthAt s.types trace frame = true := by
    intro es frame
    rw [truthAt_conjoinAll, Bool.and_eq_true, List.all_eq_true]
    exact and_iff_right rfl
  constructor
  · rintro ⟨h₁, h₂, h₃⟩
    rw [hu] at h₁ h₂ h₃
    rw [hinit, hall] at h₁
    refine ⟨h₁, fun t ht => ?_, fun c hc => h₃ c (Array.mem_toList_iff.2 hc)⟩
    have h := h₂ t (List.mem_range.2 (by omega))
    rw [htrans, hall] at h
    exact h
  · rintro ⟨h₁, h₂, h₃⟩
    refine ⟨?_, fun t ht => ?_, fun c hc => ?_⟩ <;> rw [hu]
    · rw [hinit, hall]
      exact h₁
    · rw [List.mem_range] at ht
      rw [htrans, hall]
      exact h₂ t (by omega)
    · exact h₃ c (Array.mem_toList_iff.1 hc)

/-- What a run that succeeds did. -/
theorem of_encode (h : (s.unroll config onRefusal).Succeeds e) : ∃ ts c lowered, s.system = .ok ts ∧
    (Unrolled.allocate (ts.varWidths s.types) config.timeframes).run (.initial config.options) =
      (e.map, c) ∧
    (((⟨s.types, e.map, config.timeframes, onRefusal⟩ : Unrolling).encode ts s).run
      { circuit := c }).Succeeds (e.conversions, lowered) ∧
    lowered.circuit = e.circuit := by
  unfold unroll at h
  dsimp only at h
  split at h
  · obtain ⟨_, h, -⟩ := h.of_bind
    exact absurd h (Attempt.not_succeeds_throw _ _)
  obtain ⟨ts, hts, h⟩ := h.of_bind
  obtain ⟨⟨conversions, lowered⟩, hrun, h⟩ := h.of_bind
  obtain rfl := Attempt.succeeds_pure.1 h
  exact ⟨ts, _, lowered, hts.of_ofElab, rfl, hrun, rfl⟩

/-- The formula of an encoding is that of a netlist which has inputs for the variables, with
required literals which say what the unrolling asks. -/
theorem fits_of_encode (h : (s.unroll config onRefusal).Succeeds e) (trace : Trace) :
    ∃ ts net required, s.system = .ok ts ∧ e.circuit.Fits net required ∧ e.map.Fresh net ∧
      (∀ t name bit, (e.map.get? t name bit).isSome ↔
        t < config.timeframes ∧ ∃ ty, (name, ty) ∈ ts.vars ∧ bit < s.types.width ty) ∧
      (∀ v, net.Holds v → ((∀ l ∈ required, l.eval v = true) ↔
        (⟨s.types, e.map, config.timeframes, onRefusal⟩ : Unrolling).Asks ts s
          (e.map.resolver.trace trace v))) ∧
      List.Forall₂ (fun c k => c.Denotes s.types (e.map.resolver.trace trace) k net)
        s.conversions.toList e.conversions := by
  obtain ⟨ts, c, lowered, hts, hallocate, hrun, hcircuit⟩ := of_encode h
  obtain ⟨net, -, hfits, hfresh, hbits⟩ :=
    Unrolled.sets_allocate (ts.varWidths s.types) config.timeframes [.constant] _ []
      (Circuit.fits_initial config.options) (Unrolled.fresh_empty _)
  rw [hallocate] at hfits hfresh hbits
  have hr : e.map.resolver.Ready net :=
    Expr.ready_resolver hfits.constant fun t name bit l hl => hfresh.var_lt hl
  obtain ⟨net', required, hnet, hfits', hrequired, hconversions⟩ :=
    Unrolling.asserts_encode (u := ⟨s.types, e.map, config.timeframes, onRefusal⟩) hr trace ts s
      { circuit := c } [] hfits _ lowered hrun
  rw [hcircuit] at hfits'
  refine ⟨ts, net', required, hts, hfits', hfresh.mono hnet, fun t name bit => ?_, hrequired,
    hconversions⟩
  rw [hbits, ← TransitionSystem.exists_mem_varWidths]
  simp

/-- Reading and encoding can be told to succeed by evaluation. -/
theorem exists_encode_of_any {text : String} {p : Script → Encoding → Bool}
    (h : (parse text).toOption.any (fun s =>
      ((s.encode config).run {} : Except Halt Encoding × MessageLog).1.toOption.any (p s)) = true) :
    ∃ s e log, parse text = .ok s ∧ (s.encode config).run {} = (.ok e, log) ∧ p s e = true := by
  rcases hs : parse text with f | s <;> rw [hs] at h
  · cases h
  rw [Except.toOption, Option.any_some] at h
  rcases he : ((s.encode config).run {} : Except Halt Encoding × MessageLog) with ⟨f | e, log⟩ <;>
    rw [he] at h
  · cases h
  · exact ⟨s, e, log, rfl, he, h⟩

/-- **The models of an encoding are the executions of its script.** If a script is encoded, its map
has a literal for each bit of each variable of the selected module in each timeframe, and for no
other bit. The literals have the values of a trace in some model of the formula if and only if the
commands of the script's text allow the trace. In each of these models the words of the conversions
have the bits of their expressions. -/
theorem encode_exact {log log' : MessageLog} (hs : parse text = .ok s)
    (he : (s.encode config).run log = (.ok e, log')) :
    (∃ ts, s.system = .ok ts ∧ ∀ t name bit, (e.map.get? t name bit).isSome ↔
      t < config.timeframes ∧ ∃ ty, (name, ty) ∈ ts.vars ∧ bit < s.types.width ty) ∧
    ∀ trace,
      ((∃ v, e.circuit.formula.eval v = true ∧ e.Shows v trace) ↔
        s.Admits text config.timeframes trace) ∧
      ∀ v, e.circuit.formula.eval v = true → e.Shows v trace → List.Forall₂
        (fun c k => k.name = c.name ∧ k.expr = c.expr ∧
          k.word.bits v = c.expr.bitsAt s.types trace c.frame)
        s.conversions.toList e.conversions := by
  have hsucceeds : (s.encode config).Succeeds e := ⟨log, log', he⟩
  refine ⟨?_, fun trace => ?_⟩
  · obtain ⟨ts, net, required, hts, -, -, hbits, -⟩ := fits_of_encode hsucceeds fun _ _ _ => false
    exact ⟨ts, hts, hbits⟩
  obtain ⟨ts, net, required, hts, hfits, hfresh, -, hrequired, hconversions⟩ :=
    fits_of_encode hsucceeds trace
  refine ⟨?_, fun v hv hshows => ?_⟩
  · rw [← asks_iff_admits hs hts (u := ⟨s.types, e.map, config.timeframes, .propagate⟩) rfl]
    constructor
    · rintro ⟨v, hv, hshows⟩
      obtain ⟨hnet, hall⟩ := (hfits.eval_iff v).1 hv
      have hasks := (hrequired v hnet).1 hall
      rw [Expr.trace_resolver hshows] at hasks
      exact hasks
    · intro hasks
      obtain ⟨v, hnet, hshows⟩ := hfresh.exists_holds hfits.ordered trace
      rw [← Expr.trace_resolver hshows] at hasks
      exact ⟨v, (hfits.eval_iff v).2 ⟨hnet, (hrequired v hnet).2 hasks⟩, hshows⟩
  · have hnet := ((hfits.eval_iff v).1 hv).1
    refine hconversions.imp fun c k hk => ⟨hk.name_eq, hk.expr_eq, ?_⟩
    rw [hk.word.bits_eq v hnet, Expr.trace_resolver hshows]

/-- A variable that is true at first and changes in each step, so that it cannot stay true. -/
theorem encode_exact_alternating :
    let text := "(declare-var x bool) (init x) (trans (= (next x) (not x))) (convert y x 0 1)"
    ∃ s e log, parse text = .ok s ∧ (s.encode {}).run {} = (.ok e, log) ∧
      (∃ v, e.circuit.formula.eval v = true ∧ e.Shows v fun _ _ t => t == 0) ∧
      ¬∃ v, e.circuit.formula.eval v = true ∧ e.Shows v fun _ _ _ => true := by
  intro text
  have hrun : (parse text).toOption.any (fun s =>
      ((s.encode {}).run {} : Except Halt Encoding × MessageLog).1.toOption.isSome &&
        decide (s.Admits text 2 fun _ _ t => t == 0) &&
        decide ¬s.Admits text 2 fun _ _ _ => true) = true := by decide +kernel
  rcases hs : parse text with f | s <;> rw [hs] at hrun
  · cases hrun
  rw [Except.toOption, Option.any_some, Bool.and_eq_true, Bool.and_eq_true] at hrun
  obtain ⟨⟨hencode, hchanges⟩, hstays⟩ := hrun
  rcases he : ((s.encode {}).run {} : Except Halt Encoding × MessageLog) with ⟨f | e, log⟩
  · rw [he] at hencode
    cases hencode
  · have hexact := (encode_exact hs he).2
    exact ⟨s, e, log, rfl, he, (hexact _).1.2 (of_decide_eq_true hchanges),
      mt (hexact _).1.1 (of_decide_eq_true hstays)⟩

end Script

end BitUnroll
