import BitUnroll.Proofs.Lowering.Expressions

/-!
# Rules for requirements

Requiring something restricts the traces that can be shown: those that are shown at a later stage,
with all new requirements met, have a property, and whatever has the property and was shown before
can still be shown. The rules here say so of the computations that requirements are made from. A
literal can be required, two words can be made equal, and without a resolver a literal can be
handed out to a name. This last one adds no requirement; it is the name's literal that shows fewer
traces.

## Main definitions

* `Symbols.Restricts`: from one stage to a later one, the traces with a property remain.
* `Lower.Restricts`: where a lowering computation succeeds, the traces with a property remain.
-/

namespace BitUnroll

/-- From a stage to a later one with further requirements, exactly the traces with a property
remain. An assignment that showed one before shows it again, by other values of new variables. -/
structure Symbols.Restricts (symbols : Symbols) (g g' : Stage) (more : List Literal)
    (p : Trace → Prop) : Prop where
  le : g ≤ g'
  sound : ∀ v trace, symbols.Shows g' v trace → (∀ l ∈ more, l.eval v = true) → p trace
  complete : ∀ v trace, symbols.Shows g v trace → p trace → ∃ v' : Valuation,
    (∀ x < g.net.length, v' x = v x) ∧ symbols.Shows g' v' trace ∧ ∀ l ∈ more, l.eval v' = true

namespace Lower

variable {α β : Type} {symbols : Symbols} {g : Stage} {p q : Trace → Prop}
  {post : α → Stage → Prop}

/-- From every state at a stage, a computation that succeeds leads to a stage where the traces with
a property remain, and its result has a property there. -/
def Restricts (symbols : Symbols) (g : Stage) (x : Lower α) (p : Trace → Prop)
    (post : α → Stage → Prop) : Prop :=
  ∀ s required a s', s.Fits symbols g required → x.run s = (.ok a, s') → ∃ g' more,
    symbols.Restricts g g' more p ∧ s'.Fits symbols g' (required ++ more) ∧ post a g'

/-! ## Structure -/

/-- A computation that requires nothing keeps all traces. -/
theorem Extends.restricts {x : Lower α} (hx : Extends symbols g x post) :
    Restricts symbols g x (fun _ => True) post := by
  intro s required a s' hs hrun
  obtain ⟨g', hgrows, hfits, hpost⟩ := hx s required hs
  rw [hrun] at hfits hpost
  refine ⟨g', [], ⟨hgrows.le, fun _ _ _ _ => trivial, fun v trace hv _ => ?_⟩, ?_, hpost a rfl⟩
  · obtain ⟨v', hsame, hv'⟩ := hgrows.shows v trace hv
    exact ⟨v', hsame, hv', by simp⟩
  · rwa [List.append_nil]

theorem Restricts.pure {a : α} (h : post a g) :
    Restricts symbols g (Pure.pure a) (fun _ => True) post := (Extends.pure h).restricts

/-- After both parts of a sequence the traces with both properties remain. -/
theorem Restricts.bind {x : Lower α} {f : α → Lower β} {mid : α → Stage → Prop}
    {post : β → Stage → Prop} (hx : Restricts symbols g x p mid)
    (hf : ∀ a g', g ≤ g' → mid a g' → Restricts symbols g' (f a) q post) :
    Restricts symbols g (x >>= f) (fun trace => p trace ∧ q trace) post := by
  intro s required b s'' hs hrun
  obtain ⟨a, s', h, hrun⟩ := run_bind_ok hrun
  obtain ⟨g₁, more₁, hp, hfits₁, hmid⟩ := hx s required a s' hs h
  obtain ⟨g₂, more₂, hq, hfits₂, hpost⟩ := hf a g₁ hp.le hmid s' _ b s'' hfits₁ hrun
  refine ⟨g₂, more₁ ++ more₂, ⟨hp.le.trans hq.le, fun v trace hv hmore => ?_,
    fun v trace hv htrace => ?_⟩, by rwa [← List.append_assoc], hpost⟩
  · rw [List.forall_mem_append] at hmore
    exact ⟨hp.sound v trace (hv.anti hq.le) hmore.1, hq.sound v trace hv hmore.2⟩
  · obtain ⟨v₁, hsame₁, hv₁, hmore₁⟩ := hp.complete v trace hv htrace.1
    obtain ⟨v₂, hsame₂, hv₂, hmore₂⟩ := hq.complete v₁ trace hv₁ htrace.2
    refine ⟨v₂, fun x hx => ?_, hv₂, List.forall_mem_append.2 ⟨fun l hl => ?_, hmore₂⟩⟩
    · rw [hsame₂ x (Nat.lt_of_lt_of_le hx hp.le.net.length_le), hsame₁ x hx]
    · -- the first requirements are met by values that the second part keeps
      have hlt := hfits₁.circuit.required_lt l (List.mem_append_right _ hl)
      rw [Literal.eval, hsame₂ _ hlt]
      exact hmore₁ l hl

/-- The same property in other words, of all traces that are shown. -/
theorem Restricts.congr {x : Lower α} (hx : Restricts symbols g x p post)
    (h : ∀ v trace, symbols.Shows g v trace → (p trace ↔ q trace)) :
    Restricts symbols g x q post := by
  intro s required a s' hs hrun
  obtain ⟨g', more, hp, hfits, hpost⟩ := hx s required a s' hs hrun
  refine ⟨g', more, ⟨hp.le, fun v trace hv hmore => ?_, fun v trace hv hq => ?_⟩, hfits, hpost⟩
  · exact (h v trace (hv.anti hp.le)).1 (hp.sound v trace hv hmore)
  · exact hp.complete v trace hv ((h v trace hv).2 hq)

/-- After a computation that requires nothing, a sequence requires what its second part does. -/
theorem Extends.then {x : Lower α} {f : α → Lower β} {mid : α → Stage → Prop}
    {post : β → Stage → Prop} (hx : Extends symbols g x mid)
    (hf : ∀ a g', g ≤ g' → mid a g' → Restricts symbols g' (f a) p post) :
    Restricts symbols g (x >>= f) p post :=
  (hx.restricts.bind hf).congr fun _ _ _ => iff_of_eq (true_and _)

/-- Before a computation that requires nothing, a sequence requires what its first part does. -/
theorem Restricts.finally {x : Lower α} {f : α → Lower β} {mid : α → Stage → Prop}
    {post : β → Stage → Prop} (hx : Restricts symbols g x p mid)
    (hf : ∀ a g', g ≤ g' → mid a g' → Extends symbols g' (f a) post) :
    Restricts symbols g (x >>= f) p post :=
  (hx.bind fun a g' h ha => (hf a g' h ha).restricts).congr fun _ _ _ => iff_of_eq (and_true _)

/-- After a loop the traces with the properties of all its rounds remain. -/
theorem restricts_forM {f : β → Lower Unit} {each : β → Trace → Prop} (xs : List β)
    (hf : ∀ x ∈ xs, ∀ g', g ≤ g' → Restricts symbols g' (f x) (each x) fun _ _ => True) :
    Restricts symbols g (xs.forM f) (fun trace => ∀ x ∈ xs, each x trace) fun _ _ => True := by
  induction xs generalizing g with
  | nil => exact (Restricts.pure trivial).congr fun _ _ _ => by simp
  | cons x xs ih =>
    obtain ⟨hx, hxs⟩ := List.forall_mem_cons.1 hf
    refine ((hx g le_rfl).bind fun _ g₁ h₁ _ =>
      ih fun y hy g₂ h₂ => hxs y hy g₂ (h₁.trans h₂)).congr fun _ _ _ => ?_
    rw [List.forall_mem_cons]

/-! ## Requirements -/

/-- Requiring a literal keeps the traces that it is true for. -/
theorem restricts_require {l : Literal} {t : Trace → Bool} (hl : l.Means symbols g t) :
    Restricts symbols g (build (Circuit.require l)) (fun trace => t trace = true)
      fun _ _ => True := by
  rintro ⟨c, bound, reads⟩ required a s' ⟨hc, hbound, hwithin⟩ hrun
  obtain ⟨more, hfits, hmore⟩ := hc.require hl.lt
  cases hrun
  have hiff : ∀ v trace, symbols.Shows g v trace →
      ((∀ l ∈ more, l.eval v = true) ↔ t trace = true) := fun v trace hv => by
    rw [hmore v hv.holds, hl.eval_eq v trace hv]
  exact ⟨g, more, ⟨le_rfl, fun v trace hv => (hiff v trace hv).1,
    fun v trace hv ht => ⟨v, fun _ _ => rfl, hv, (hiff v trace hv).2 ht⟩⟩,
    ⟨hfits, hbound, hwithin⟩, trivial⟩

/-- Making two literals equal keeps the traces that they are equal for. -/
theorem restricts_requireEqual {x y : Literal} {t u : Trace → Bool}
    (hx : x.Means symbols g t) (hy : y.Means symbols g u) :
    Restricts symbols g (build (Circuit.requireEqual x y)) (fun trace => t trace = u trace)
      fun _ _ => True := by
  have hsame : Extends symbols g (build (Circuit.iff x y)) fun l g' =>
      l.Means symbols g' fun trace => t trace == u trace :=
    extends_build (Circuit.computes_iff g.net x y hx.lt hy.lt) fun l g' h hl =>
      ⟨hl.lt, fun v trace hv => by
        rw [hl.eval_eq v hv.holds, (hx.mono h).eval_eq v trace hv, (hy.mono h).eval_eq v trace hv]⟩
  exact (hsame.then fun l g' _ hl => restricts_require hl).congr fun _ _ _ => beq_iff_eq

/-- Handing out a literal to a name keeps the traces where the name's bit has its value. -/
theorem restricts_bind {name : String} {bit : Nat} {l : Literal} {t : Trace → Bool}
    (hl : l.Means .onDemand g t) (hkey : g.bound[(⟨name, bit⟩ : NamedBit)]? = none) :
    Restricts .onDemand g (bind name bit l) (fun trace => t trace = trace name bit 0)
      fun _ g' => g' = g.bind ⟨name, bit⟩ l := by
  rintro ⟨c, bound, reads⟩ required a s' ⟨hc, rfl, hwithin⟩ hrun
  cases hrun
  refine ⟨g.bind ⟨name, bit⟩ l, [], ⟨Stage.le_bind hkey l, fun v trace hv _ => ?_,
    fun v trace hv ht => ⟨v, fun _ _ => rfl, ?_, by simp⟩⟩, ⟨?_, rfl, ?_⟩, rfl⟩
  · obtain ⟨hbefore, hbit⟩ := (Symbols.shows_bind hkey).1 hv
    rw [← hl.eval_eq v trace hbefore, hbit]
  · exact (Symbols.shows_bind hkey).2 ⟨hv, (hl.eval_eq v trace hv).trans ht⟩
  · rw [List.append_nil]
    exact hc
  · exact Symbols.within_bind hwithin hl.lt _

end Lower

end BitUnroll
