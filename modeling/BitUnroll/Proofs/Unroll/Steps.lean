import BitUnroll.Proofs.Lowering.Requirements
import BitUnroll.Unroll.Encoding

/-!
# Rules for unrolling steps

What the steps of an unrolling require where they succeed. A step that succeeds was refused by
nobody, so it did to the circuit what lowering does.

## Main definitions

* `Attempt.Succeeds`: an attempt may end with a result.
* `Step.Asserts`: what a step requires where it succeeds, and what is known of its
  result.
* `Conversion.Denotes`: a converted word has the bits of the expression that it stands for.

## Main statements

* `Unrolling.asserts_require`, `Unrolling.asserts_convert`: the steps of an unrolling.
-/

namespace BitUnroll

namespace Attempt

variable {α β : Type}

/-- An attempt may end with a result, whatever it prints. -/
def Succeeds (x : Attempt α) (a : α) : Prop := ∃ log log', x.run log = (.ok a, log')

/-- A sequence succeeds only if both of its parts do. -/
theorem Succeeds.of_bind {x : Attempt α} {f : α → Attempt β} {b : β} (h : (x >>= f).Succeeds b) :
    ∃ a, x.Succeeds a ∧ (f a).Succeeds b := by
  obtain ⟨log, log', hrun⟩ := h
  obtain ⟨a, log₁, ha, hb⟩ := run_bind_ok hrun
  exact ⟨a, ⟨log, log₁, ha⟩, ⟨log₁, log', hb⟩⟩

theorem succeeds_pure {a b : α} : (pure a : Attempt α).Succeeds b ↔ a = b := by
  constructor
  · rintro ⟨log, log', h⟩
    exact Except.ok.inj (Prod.ext_iff.1 h).1
  · rintro rfl
    exact ⟨{}, {}, rfl⟩

theorem not_succeeds_throw (e : Halt) (a : α) : ¬(throw e : Attempt α).Succeeds a := by
  rintro ⟨log, log', h⟩
  cases h

theorem not_succeeds_exitWith (text : String) (a : α) :
    ¬(exitWith text : Attempt α).Succeeds a := by
  intro h
  obtain ⟨_, -, h⟩ := h.of_bind
  exact not_succeeds_throw _ a h

theorem Succeeds.of_ofElab {x : Except Failure α} {a : α} (h : (ofElab x).Succeeds a) :
    x = .ok a := by
  cases x with
  | error f => exact absurd h (not_succeeds_throw _ a)
  | ok b => rw [succeeds_pure.1 h]

/-- What was refused does not succeed, in either way to go on. -/
theorem Succeeds.of_orFail {context : FailureContext} {result : Except Fault α} {a : α}
    (h : (orFail context result).Succeeds a) : result = .ok a := by
  rcases result with (e | c) | b
  · exact absurd h (not_succeeds_throw _ a)
  · exact absurd h (not_succeeds_throw _ a)
  · rw [succeeds_pure.1 h]

theorem Succeeds.of_orExit {result : Except Fault α} {a : α} (h : (orExit result).Succeeds a) :
    result = .ok a := by
  rcases result with (e | c) | b
  · exact absurd h (not_succeeds_exitWith _ a)
  · exact absurd h (not_succeeds_throw _ a)
  · rw [succeeds_pure.1 h]

end Attempt

/-- The word of a conversion has the bits of its expression wherever a netlist is followed. -/
structure Conversion.Denotes (c : Conversion) (types : TypeTable) (trace : Valuation → Trace)
    (k : Converted) (net : Netlist) : Prop where
  name_eq : k.name = c.name
  expr_eq : k.expr = c.expr
  word : k.word.Denotes net fun v => c.expr.bitsAt types (trace v) c.frame

theorem Conversion.Denotes.mono {c : Conversion} {types : TypeTable} {trace : Valuation → Trace}
    {k : Converted} {net net' : Netlist} (hk : c.Denotes types trace k net) (h : net <+: net') :
    c.Denotes types trace k net' := ⟨hk.name_eq, hk.expr_eq, hk.word.mono h⟩

namespace Step

variable {α β : Type} {net : Netlist} {p q : Valuation → Prop}

/-- What a step requires where it succeeds, and what is known of its result. -/
def Asserts (net : Netlist) (x : Step α) (p : Valuation → Prop) (post : α → Netlist → Prop) :
    Prop :=
  Lowering.Asserts net (fun s a s' => (x.run s).Succeeds (a, s')) p post

theorem Asserts.bind {x : Step α} {f : α → Step β} {mid : α → Netlist → Prop}
    {post : β → Netlist → Prop} (hx : Asserts net x p mid)
    (hf : ∀ a net', net <+: net' → mid a net' → Asserts net' (f a) q post) :
    Asserts net (x >>= f) (fun v => p v ∧ q v) post := by
  refine Lowering.Asserts.seq (fun s b s'' hrun => ?_) hx hf
  obtain ⟨⟨a, s'⟩, ha, hb⟩ := Attempt.Succeeds.of_bind hrun
  exact ⟨a, s', ha, hb⟩

theorem Asserts.congr {x : Step α} {post : α → Netlist → Prop} (hx : Asserts net x p post)
    (h : ∀ v, net.Holds v → (p v ↔ q v)) : Asserts net x q post :=
  Lowering.Asserts.congr hx h

theorem asserts_pure {a : α} {post : α → Netlist → Prop} (h : post a net) :
    Asserts net (pure a) (fun _ => True) post := by
  refine Lowering.asserts_of_eq fun s b s' hrun => ?_
  obtain ⟨rfl, rfl⟩ := Prod.ext_iff.1 (Attempt.succeeds_pure.1 hrun)
  exact ⟨rfl, h⟩

/-- A loop requires what each of its rounds requires. -/
theorem asserts_forM {f : β → Step Unit} {each : β → Valuation → Prop} (xs : List β)
    (hf : ∀ x net', net <+: net' → Asserts net' (f x) (each x) fun _ _ => True) :
    Asserts net (xs.forM f) (fun v => ∀ x ∈ xs, each x v) fun _ _ => True := by
  induction xs generalizing net with
  | nil => exact (asserts_pure trivial).congr fun v _ => by simp
  | cons x xs ih =>
    refine ((hf x net List.prefix_rfl).bind fun _ net₁ h₁ _ => ih fun y net₂ h₂ => ?_).congr
      fun v _ => ?_
    · exact hf y net₂ (h₁.trans h₂)
    · rw [List.forall_mem_cons]

/-- The results of a loop that requires nothing, one for each round. -/
theorem asserts_mapM {f : α → Step β} {each : α → β → Netlist → Prop} (xs : List α)
    (hf : ∀ x net', net <+: net' → Asserts net' (f x) (fun _ => True) (each x))
    (hmono : ∀ x y net net', net <+: net' → each x y net → each x y net') :
    Asserts net (xs.mapM f) (fun _ => True) fun ys net' =>
      List.Forall₂ (fun x y => each x y net') xs ys := by
  induction xs generalizing net with
  | nil => exact asserts_pure .nil
  | cons x xs ih =>
    rw [List.mapM_cons]
    have hnone : ∀ v, net.Holds v → (True ∧ True ∧ True ↔ True) := fun v _ => by simp
    refine Asserts.congr ((hf x net List.prefix_rfl).bind fun y net₁ h₁ hy => ?_) hnone
    refine (ih fun z net₂ h₂ => hf z net₂ (h₁.trans h₂)).bind fun ys net₂ h₂ hys => ?_
    exact asserts_pure (.cons (hmono x y net₁ net₂ h₂ hy) hys)

/-- Where lowering is not refused, it did what it required. -/
theorem asserts_settle {x : Lower α} {go : Except Fault α → Attempt α}
    {post : α → Netlist → Prop} (hgo : ∀ result a, (go result).Succeeds a → result = .ok a)
    (hx : Lower.Asserts net x p post) : Asserts net (x.settle go) p post := by
  intro s required hs a s' hrun
  obtain ⟨b, hb, hrun⟩ := Attempt.Succeeds.of_bind hrun
  obtain ⟨rfl, rfl⟩ := Prod.ext_iff.1 (Attempt.succeeds_pure.1 hrun)
  exact hx s required hs b (x.run s).2 (Prod.ext (hgo _ _ hb) rfl)

theorem asserts_orFail {x : Lower α} {post : α → Netlist → Prop} (context : FailureContext)
    (hx : Lower.Asserts net x p post) : Asserts net (x.orFail context) p post :=
  asserts_settle (fun _ _ => Attempt.Succeeds.of_orFail) hx

theorem asserts_orExit {x : Lower α} {post : α → Netlist → Prop}
    (hx : Lower.Asserts net x p post) : Asserts net x.orExit p post :=
  asserts_settle (fun _ _ => Attempt.Succeeds.of_orExit) hx

end Step

namespace Unrolling

variable {α : Type} {u : Unrolling} {net : Netlist}

/-- Lowering an expression is the check of its reach and then the lowering itself, in the way that
was chosen. -/
theorem run_lower (goal : Goal) (e : Expr) (frame : Frame) (returning fatal : Step α)
    (s : Lowering) : (u.lower goal e frame returning fatal).run s = (do
      u.checkReach goal e frame
      match u.onRefusal with
      | .propagate => returning.run s
      | .exit => fatal.run s) := by
  unfold lower
  cases u.onRefusal <;> simp

/-- What both ways of lowering require is required where the expression stays within the
timeframes. -/
theorem asserts_lower {goal : Goal} {e : Expr} {frame : Frame} {returning fatal : Step α}
    {p : Valuation → Prop} {post : α → Netlist → Prop}
    (hreturning : Step.Asserts net returning p post) (hfatal : Step.Asserts net fatal p post) :
    Step.Asserts net (u.lower goal e frame returning fatal) p post := by
  intro s required hs a s' hrun
  rw [run_lower] at hrun
  obtain ⟨_, -, hrun⟩ := Attempt.Succeeds.of_bind hrun
  cases h : u.onRefusal with
  | propagate =>
    rw [h] at hrun
    exact hreturning s required hs a s' hrun
  | exit =>
    rw [h] at hrun
    exact hfatal s required hs a s' hrun

/-- A step that makes an expression true. -/
theorem asserts_require (hr : u.map.resolver.Ready net) (rest : Trace) (goal : Goal) (e : Expr)
    (frame : Frame) :
    Step.Asserts net (u.require goal e frame)
      (fun v => e.truthAt u.types (u.map.resolver.trace rest v) frame = true) fun _ _ => True :=
  asserts_lower (Step.asserts_orFail _ (Expr.asserts_require hr e frame))
    (Step.asserts_orExit (Expr.asserts_require hr e frame))

/-- A step that converts an expression leaves all executions as they are. -/
theorem asserts_convert (hr : u.map.resolver.Ready net) (rest : Trace) (c : Conversion) :
    Step.Asserts net (u.convert c) (fun _ => True)
      (c.Denotes u.types (u.map.resolver.trace rest)) := by
  have hword := (Expr.faithful u.types u.map.resolver rest c.expr).word net c.frame hr
  refine ((asserts_lower (Step.asserts_orFail _ hword.asserts)
    (Step.asserts_orExit hword.asserts)).bind fun w net₁ h₁ hw => ?_).congr
    fun v _ => iff_of_eq (and_self _)
  exact Step.asserts_pure ⟨rfl, rfl, hw⟩

theorem asserts_requireFrom (hr : u.map.resolver.Ready net) (rest : Trace) (number : Nat)
    (cs : List Constraint) :
    Step.Asserts net (u.requireFrom number cs)
      (fun v => ∀ c ∈ cs, c.expr.truthAt u.types (u.map.resolver.trace rest v) c.frame = true)
      fun _ _ => True := by
  induction cs generalizing number net with
  | nil => exact (Step.asserts_pure trivial).congr fun v _ => by simp
  | cons c cs ih =>
    refine ((asserts_require hr rest _ c.expr c.frame).bind fun _ net₁ h₁ _ =>
      ih (hr.mono h₁) (number + 1)).congr fun v _ => ?_
    rw [List.forall_mem_cons]

end Unrolling

end BitUnroll
