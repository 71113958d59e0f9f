import BitUnroll.Proofs.Lowering.Expressions

/-!
# What requirements say

With a resolver, requiring an expression adds gates and required literals. Where it succeeds, the
new literals are all true exactly if the expression is, whatever became of its conjuncts on the
way.

## Main definitions

* `Lowering.Asserts`: what runs that succeed require, and what is known of their results.
* `Lower.Asserts`: the same of a lowering computation.

## Main statements

* `Expr.require_induction`: the ways in which expressions are required.
* `Expr.asserts_require`: requiring an expression requires its truth value.
-/

namespace BitUnroll

namespace Lowering

variable {α β : Type} {net : Netlist} {p q : Valuation → Prop} {post : α → Netlist → Prop}

/-- Wherever a state's circuit fits a netlist and required literals, each run that succeeds extends
both, the new literals say `p`, and the result has a property. -/
def Asserts (net : Netlist) (runs : Lowering → α → Lowering → Prop) (p : Valuation → Prop)
    (post : α → Netlist → Prop) : Prop :=
  ∀ s required, s.circuit.Fits net required → ∀ a s', runs s a s' →
    ∃ (net' : Netlist) (more : List Literal), net <+: net' ∧
      s'.circuit.Fits net' (required ++ more) ∧
      (∀ v, net'.Holds v → ((∀ l ∈ more, l.eval v = true) ↔ p v)) ∧ post a net'

/-- What a sequence of runs requires is what both of its parts require. -/
theorem Asserts.seq {first : Lowering → α → Lowering → Prop}
    {second : α → Lowering → β → Lowering → Prop} {runs : Lowering → β → Lowering → Prop}
    {mid : α → Netlist → Prop} {post : β → Netlist → Prop}
    (hruns : ∀ s b s'', runs s b s'' → ∃ a s', first s a s' ∧ second a s' b s'')
    (hfirst : Asserts net first p mid)
    (hsecond : ∀ a net', net <+: net' → mid a net' → Asserts net' (second a) q post) :
    Asserts net runs (fun v => p v ∧ q v) post := by
  intro s required hs b s'' hrun
  obtain ⟨a, s', ha, hb⟩ := hruns s b s'' hrun
  obtain ⟨net₁, more₁, h₁, hfits₁, hp, hmid⟩ := hfirst s required hs a s' ha
  obtain ⟨net₂, more₂, h₂, hfits₂, hq, hpost⟩ := hsecond a net₁ h₁ hmid s' _ hfits₁ b s'' hb
  refine ⟨net₂, more₁ ++ more₂, h₁.trans h₂, ?_, fun v hv => ?_, hpost⟩
  · rw [← List.append_assoc]
    exact hfits₂
  · rw [List.forall_mem_append, hp v (hv.of_isPrefix h₂), hq v hv]

/-- The same requirement in other words, wherever the netlist is followed. -/
theorem Asserts.congr {runs : Lowering → α → Lowering → Prop} (hx : Asserts net runs p post)
    (h : ∀ v, net.Holds v → (p v ↔ q v)) : Asserts net runs q post := by
  intro s required hs a s' hrun
  obtain ⟨net', more, hnet, hfits, hmore, hpost⟩ := hx s required hs a s' hrun
  refine ⟨net', more, hnet, hfits, fun v hv => ?_, hpost⟩
  rw [hmore v hv, h v (hv.of_isPrefix hnet)]

/-- Runs that change nothing require nothing. -/
theorem asserts_of_eq {runs : Lowering → α → Lowering → Prop}
    (h : ∀ s a s', runs s a s' → s' = s ∧ post a net) : Asserts net runs (fun _ => True) post := by
  intro s required hs a s' hrun
  obtain ⟨rfl, hpost⟩ := h s a s' hrun
  refine ⟨net, [], List.prefix_rfl, ?_, fun v _ => by simp, hpost⟩
  rw [List.append_nil]
  exact hs

end Lowering

namespace Lower

variable {α β : Type} {net : Netlist} {p : Valuation → Prop} {post : α → Netlist → Prop}

/-- What a lowering computation requires where it succeeds. -/
def Asserts (net : Netlist) (x : Lower α) (p : Valuation → Prop) (post : α → Netlist → Prop) :
    Prop :=
  Lowering.Asserts net (fun s a s' => x.run s = (.ok a, s')) p post

/-- A computation that only adds gates requires nothing. -/
theorem AddsGates.asserts {x : Lower α} (hx : AddsGates net x post) :
    Asserts net x (fun _ => True) post := by
  intro s required hs a s' hrun
  obtain ⟨keys, hfits, hpost⟩ := hx s required hs
  rw [hrun] at hfits hpost
  refine ⟨_, [], List.prefix_append .., ?_, fun v _ => by simp, hpost a rfl⟩
  rw [List.append_nil]
  exact hfits

theorem Asserts.bind {x : Lower α} {f : α → Lower β} {q : Valuation → Prop}
    {mid : α → Netlist → Prop} {post : β → Netlist → Prop} (hx : Asserts net x p mid)
    (hf : ∀ a net', net <+: net' → mid a net' → Asserts net' (f a) q post) :
    Asserts net (x >>= f) (fun v => p v ∧ q v) post :=
  Lowering.Asserts.seq (fun _ _ _ hrun => run_bind_ok hrun) hx hf

theorem Asserts.congr {x : Lower α} {q : Valuation → Prop} (hx : Asserts net x p post)
    (h : ∀ v, net.Holds v → (p v ↔ q v)) : Asserts net x q post :=
  Lowering.Asserts.congr hx h

/-- Requiring a literal requires its value. -/
theorem asserts_require {l : Literal} (hl : l.var < net.length) :
    Asserts net (build (Circuit.require l)) (fun v => l.eval v = true) fun _ _ => True := by
  rintro ⟨c, bound, reads⟩ required hc a s' hrun
  obtain ⟨more, hfits, hmore⟩ := hc.require hl
  cases hrun
  exact ⟨net, more, List.prefix_rfl, hfits, hmore, trivial⟩

end Lower

namespace Expr

variable {types : TypeTable} {r : Resolver} {rest : Trace} {net : Netlist}

/-- Induction along the ways in which expressions are required: a conjunction conjunct by conjunct,
an equality of two operands by itself if it can be, and any other expression by its truth value. -/
theorem require_induction {motive : Expr → Prop}
    (conjunction : ∀ ty es, (∀ e ∈ es, motive e) → motive (.node (.connective .and) ty es))
    (equality : ∀ ty lhs rhs, motive (.node (.equality false) ty [lhs, rhs]))
    (other : ∀ e : Expr, (∀ s frame, e.require s frame = e.requireTruth s frame) → motive e)
    (e : Expr) : motive e := by
  induction e using Expr.induction with
  | node kind ty es ih =>
    cases kind with
    | connective op =>
      cases op with
      | and => exact conjunction ty es ih
      | or | xor => exact other _ fun _ _ => rfl
    | equality negated =>
      cases negated with
      | true => exact other _ fun _ _ => rfl
      | false =>
        rcases es with _ | ⟨lhs, _ | ⟨rhs, _ | ⟨e, es⟩⟩⟩
        · exact other _ fun _ _ => rfl
        · exact other _ fun _ _ => rfl
        · exact equality ty lhs rhs
        · exact other _ fun _ _ => rfl
    | symbol | nextSymbol | constant | truth | nil | not | implies | ite | complement | negate
    | binary | relation | extractBit | extractBits | concat | cast | temporal =>
      exact other _ fun _ _ => rfl

/-- Requiring the literal of an expression requires its truth value. -/
theorem asserts_requireTruth (hr : r.Ready net) (e : Expr) (frame : Frame) :
    Lower.Asserts net (e.requireTruth ⟨types, .mapped r⟩ frame)
      (fun v => e.truthAt types (r.trace rest v) frame = true) fun _ _ => True := by
  have htruth := ((faithful types r rest e).truth net frame hr).asserts
  refine (htruth.bind fun l net' _ hl => (Lower.asserts_require hl.lt).congr fun v hv => ?_).congr
    fun v _ => iff_of_eq (true_and _)
  rw [hl.eval_eq v hv]

/-- Requiring expressions in order requires the truth values of all of them. -/
theorem asserts_requireAll {es : List Expr} (hr : r.Ready net) (frame : Frame)
    (hes : ∀ e ∈ es, ∀ net, r.Ready net → Lower.Asserts net (e.require ⟨types, .mapped r⟩ frame)
      (fun v => e.truthAt types (r.trace rest v) frame = true) fun _ _ => True) :
    Lower.Asserts net (requireAll ⟨types, .mapped r⟩ es frame)
      (fun v => ∀ e ∈ es, e.truthAt types (r.trace rest v) frame = true) fun _ _ => True := by
  induction es generalizing net with
  | nil =>
    have hnone : Lower.AddsGates net (pure () : Lower Unit) fun _ _ => True := .pure trivial
    exact hnone.asserts.congr fun v _ => by simp
  | cons e es ih =>
    obtain ⟨he, hes⟩ := List.forall_mem_cons.1 hes
    refine ((he net hr).bind fun _ net' h _ => ih (hr.mono h) hes).congr fun v _ => ?_
    rw [List.forall_mem_cons]

/-- With a resolver an equality is not tried by itself. -/
theorem require_equality (ty : Ty) (lhs rhs : Expr) (frame : Frame) :
    require ⟨types, .mapped r⟩ (.node (.equality false) ty [lhs, rhs]) frame =
      requireTruth ⟨types, .mapped r⟩ (.node (.equality false) ty [lhs, rhs]) frame := rfl

/-- Requiring an expression requires its truth value. A conjunction is true if its conjuncts
are. -/
theorem asserts_require (hr : r.Ready net) (e : Expr) (frame : Frame) :
    Lower.Asserts net (e.require ⟨types, .mapped r⟩ frame)
      (fun v => e.truthAt types (r.trace rest v) frame = true) fun _ _ => True := by
  induction e using require_induction generalizing net with
  | conjunction ty es ih =>
    refine (asserts_requireAll hr frame fun e he net hr => ih e he hr).congr fun v _ => ?_
    rw [truthAt_of_conjunction rfl, List.all_eq_true]
    rfl
  | equality ty lhs rhs =>
    rw [require_equality]
    exact asserts_requireTruth hr _ frame
  | other e htruth =>
    rw [htruth]
    exact asserts_requireTruth hr e frame

end Expr

end BitUnroll
