import BitUnroll.Lower.Expr
import BitUnroll.Proofs.Lowering.Stages
import BitUnroll.Proofs.Word.Circuits

/-!
# Rules for lowering computations

Lowering goes from one stage to a later one, whether it succeeds or stops. It requires nothing: it
adds gates, and inputs for the bits of variables that had no literals. The rules here say so of the
computations that lowering is made from, together with what is known of their results where they
succeed. With a resolver lowering adds gates only, and the values of state variables come from the
resolver's literals.

## Main definitions

* `Lower.Yields`: what is known of the result of a computation, whatever state it starts in.
* `Lowering.Fits`: the stage of a state.
* `Lower.Extends`: a lowering computation requires nothing, and what is known of its result.
* `Lower.AddsGates`: a lowering computation adds gates only.
* `Resolver.trace`: the trace that the literals of a resolver have under an assignment.
* `Resolver.Within`: the literals of a resolver have variables of a netlist.
-/

namespace BitUnroll

/-- A computation with a state that may stop goes on from the state that it did not stop in. -/
theorem run_bind {ε σ α β : Type} (x : ExceptT ε (StateM σ) α) (f : α → ExceptT ε (StateM σ) β)
    (s : σ) : (x >>= f).run s =
      match (x.run s : Except ε α × σ) with
      | (.ok a, s') => (f a).run s'
      | (.error e, s') => (.error e, s') := by
  have hbind : (x >>= f).run s = ExceptT.bindCont f (x.run s).1 (x.run s).2 := rfl
  rw [hbind]
  rcases (x.run s : Except ε α × σ) with ⟨_ | _, s'⟩ <;> rfl

/-- Where two computations one after the other succeed, both do. -/
theorem run_bind_ok {ε σ α β : Type} {x : ExceptT ε (StateM σ) α} {f : α → ExceptT ε (StateM σ) β}
    {s s' : σ} {b : β} (h : (x >>= f).run s = (.ok b, s')) :
    ∃ a t, x.run s = (.ok a, t) ∧ (f a).run t = (.ok b, s') := by
  rw [run_bind] at h
  rcases hx : (x.run s : Except ε α × σ) with ⟨e | a, t⟩ <;> rw [hx] at h
  · cases h
  · exact ⟨a, t, rfl, h⟩

/-- Two computations one after the other end where the first one stops, or where the second one ends
that goes on from there. -/
theorem run_bind_state {ε σ α β : Type} (x : ExceptT ε (StateM σ) α)
    (f : α → ExceptT ε (StateM σ) β) (s : σ) : ((x >>= f).run s).2 = (x.run s).2 ∨
      ∃ a, ((x >>= f).run s).2 = ((f a).run (x.run s).2).2 := by
  rw [run_bind]
  rcases (x.run s : Except ε α × σ) with ⟨e | a, t⟩
  · exact .inl rfl
  · exact .inr ⟨a, rfl⟩

/-! ## Results -/

namespace Lower

variable {α β : Type} {post : α → Prop}

/-- Whatever state a computation starts in, if it succeeds then its result has a property. -/
def Yields (x : Lower α) (post : α → Prop) : Prop := ∀ s a, (x.run s).1 = .ok a → post a

theorem Yields.pure {a : α} (h : post a) : Yields (Pure.pure a) post :=
  fun _ _ hb => Except.ok.inj hb ▸ h

/-- What is known anyway is known of every result. -/
theorem Yields.of {x : Lower α} (h : ∀ a, post a) : Yields x post := fun _ a _ => h a

theorem yields_refuse (e : LoweringError) : Yields (refuse e) post := fun _ _ hb => nomatch hb

theorem Yields.bind {x : Lower α} {f : α → Lower β} {mid : α → Prop} {post : β → Prop}
    (hx : Yields x mid) (hf : ∀ a, mid a → Yields (f a) post) : Yields (x >>= f) post := by
  intro s b hb
  have hrun : (x >>= f).run s = (.ok b, ((x >>= f).run s).2) := Prod.ext hb rfl
  obtain ⟨a, t, ha, hb⟩ := run_bind_ok hrun
  exact hf a (hx s a (congrArg Prod.fst ha)) t b (congrArg Prod.fst hb)

theorem Yields.imp {x : Lower α} {mid : α → Prop} (hx : Yields x mid) (h : ∀ a, mid a → post a) :
    Yields x post := fun s a ha => h a (hx s a ha)

/-- What is known of the first part does not depend on the second one. -/
theorem Yields.then {x : Lower α} {f : α → Lower β} {p : Prop} (hx : Yields x fun _ => p) :
    Yields (x >>= f) fun _ => p := hx.bind fun _ hp => .of fun _ => hp

end Lower

/-! ## Stages -/

/-- The stage of a state: its circuit fits the netlist and required literals, and its names have
the literals. -/
structure Lowering.Fits (s : Lowering) (symbols : Symbols) (g : Stage) (required : List Literal) :
    Prop where
  circuit : s.circuit.Fits g.net required
  bound : s.bound = g.bound
  within : symbols.Within g

namespace Lower

variable {α β : Type} {symbols : Symbols} {g : Stage} {post : α → Stage → Prop}

/-- From every state at a stage, a computation leads to a stage that shows as much, with the same
requirements. Its result, if there is one, has a property there. -/
def Extends (symbols : Symbols) (g : Stage) (x : Lower α) (post : α → Stage → Prop) : Prop :=
  ∀ s required, s.Fits symbols g required → ∃ g', symbols.Grows g g' ∧
    (x.run s).2.Fits symbols g' required ∧ ∀ a, (x.run s).1 = .ok a → post a g'

theorem Extends.pure {a : α} (h : post a g) : Extends symbols g (Pure.pure a) post :=
  fun _ _ hs => ⟨g, symbols.grows_refl g, hs, fun _ hb => Except.ok.inj hb ▸ h⟩

/-- A computation that stops has no result. -/
theorem extends_refuse (e : LoweringError) : Extends symbols g (refuse e) post :=
  fun _ _ hs => ⟨g, symbols.grows_refl g, hs, fun _ hb => nomatch hb⟩

theorem extends_crash (e : Crash) : Extends symbols g (crash e) post :=
  fun _ _ hs => ⟨g, symbols.grows_refl g, hs, fun _ hb => nomatch hb⟩

/-- The result of a first computation, and all that was known at its stage, may be used by a second
one at a later stage. -/
theorem Extends.bind {x : Lower α} {f : α → Lower β} {mid : α → Stage → Prop}
    {post : β → Stage → Prop} (hx : Extends symbols g x mid)
    (hf : ∀ a g', g ≤ g' → mid a g' → Extends symbols g' (f a) post) :
    Extends symbols g (x >>= f) post := by
  intro s required hs
  obtain ⟨g₁, hgrows, hfits, hmid⟩ := hx s required hs
  rw [run_bind]
  rcases h : (x.run s : Except Fault α × Lowering) with ⟨e | a, s'⟩ <;> rw [h] at hfits hmid
  · exact ⟨g₁, hgrows, hfits, fun b hb => nomatch hb⟩
  · obtain ⟨g₂, hgrows', hfits', hpost⟩ := hf a g₁ hgrows.le (hmid a rfl) s' required hfits
    exact ⟨g₂, hgrows.trans hgrows', hfits', hpost⟩

theorem Extends.imp {x : Lower α} {mid : α → Stage → Prop} (hx : Extends symbols g x mid)
    (h : ∀ a g', g ≤ g' → mid a g' → post a g') : Extends symbols g x post := by
  intro s required hs
  obtain ⟨g', hgrows, hfits, hmid⟩ := hx s required hs
  exact ⟨g', hgrows, hfits, fun a ha => h a g' hgrows.le (hmid a ha)⟩

/-- Extending the circuit by gates. -/
theorem extends_build {x : Build α} {mid : α → Netlist → Prop}
    (hx : Build.AddsGates g.net x mid) (h : ∀ a g', g ≤ g' → mid a g'.net → post a g') :
    Extends symbols g (build x) post := by
  rintro ⟨c, bound, reads⟩ required ⟨hc, hbound, hwithin⟩
  obtain ⟨keys, hfits, hmid⟩ := hx c required hc
  refine ⟨g.append (keys.map .gate), Symbols.grows_gates hfits.ordered hwithin,
    ⟨hfits, hbound, Symbols.within_append hwithin _⟩, fun a ha => ?_⟩
  exact Except.ok.inj ha ▸ h _ _ (g.le_append _) hmid

/-- Extending the circuit with an operation on words. -/
theorem extends_gated {x : Word.Gated α} {mid : α → Netlist → Prop}
    (hx : Word.Gated.AddsGates g.net x mid) (h : ∀ a g', g ≤ g' → mid a g'.net → post a g') :
    Extends symbols g (gated x) post := by
  have hbuild : Extends symbols g (build x.run) fun r g' =>
      g ≤ g' ∧ ∀ a, r = .ok a → mid a g'.net := extends_build hx fun _ _ hg hr => ⟨hg, hr⟩
  refine hbuild.bind fun r g' _ ⟨hg, hr⟩ => ?_
  cases r with
  | ok a => exact .pure (h a g' hg (hr a rfl))
  | error lengths => exact extends_crash _

/-! ## Checks -/

theorem extends_sameWidth (m n : Nat) :
    Extends symbols g (sameWidth m n) fun _ _ => m = n := by
  unfold sameWidth
  split
  · exact .pure ‹_›
  · exact extends_refuse _

/-- The only bit of a word is its literal. -/
theorem extends_oneBit (w : Word) : Extends symbols g (oneBit w) fun l _ => w = [l] := by
  unfold oneBit
  split
  · exact .pure rfl
  · exact extends_refuse _

theorem extends_bitOf (w : Word) (i : Nat) :
    Extends symbols g (bitOf w i) fun l _ => w[i]? = some l := by
  unfold bitOf
  split
  · exact .pure ‹_›
  · exact extends_crash _

theorem extends_slice (w : Word) (upper lower : Nat) :
    Extends symbols g (slice w upper lower) fun part _ => part = w.slice upper lower := by
  unfold slice
  split
  · exact .pure rfl
  · exact extends_crash _

theorem extends_shift (f : Frame) (offset : Nat) :
    Extends symbols g (shift f offset) fun f' _ => f' = f.later offset := by
  unfold shift
  split
  · rename_i f' hf'
    exact .pure (Frame.shift_eq_ok_iff.1 hf').2.2
  · exact extends_refuse _

theorem extends_constantIndex (e : Expr) (kind : Kind) (width : Nat) :
    Extends symbols g (constantIndex e kind width) fun i _ =>
      i = (e.toInteger?.getD 0).toNat ∧ i < width := by
  unfold constantIndex
  split
  · exact extends_refuse _
  · rename_i n hn
    split
    · rename_i hrange
      refine .pure ⟨by rw [hn]; rfl, ?_⟩
      omega
    · exact extends_refuse _

/-! ## Symbols -/

theorem extends_ask (r : Resolver) (name : String) (bit t : Nat) :
    Extends (.mapped r) g (ask r name bit t) fun l g' =>
      l.Means (.mapped r) g' fun trace => trace name bit t := by
  rintro s required ⟨hc, hbound, hwithin⟩
  refine ⟨g, Symbols.grows_refl _ g, ?_, fun l hl => ?_⟩ <;> unfold ask at * <;>
    rw [run_bind] at *
  · cases r.resolve name bit t <;> exact ⟨hc, hbound, hwithin⟩
  · refine Symbols.means_of_literal? hwithin ?_
    rw [Symbols.literal?]
    cases hresolve : r.resolve name bit t <;> rw [hresolve] at hl
    · cases hl
    · exact congrArg some (Except.ok.inj hl)

/-- A fresh literal, handed out to a name's bit that has none. -/
theorem extends_fresh {name : String} {bit : Nat}
    (hkey : g.bound[(⟨name, bit⟩ : NamedBit)]? = none) :
    Extends .onDemand g (do
      let l ← build Circuit.fresh
      bind name bit l
      return l) fun l g' =>
        g'.bound[(⟨name, bit⟩ : NamedBit)]? = some l ∧ Symbols.onDemand.Within g' := by
  rintro ⟨c, bound, reads⟩ required ⟨hc, rfl, hwithin⟩
  obtain ⟨hfresh, hfits⟩ := hc.fresh
  have hwithin' : Symbols.onDemand.Within
      ((g.append [.input]).bind ⟨name, bit⟩ ⟨g.net.length, true⟩) :=
    Symbols.within_bind (Symbols.within_append hwithin _) (by simp) _
  refine ⟨_, Symbols.grows_fresh hc.ordered hwithin hkey, ⟨hfits, ?_, hwithin'⟩, fun l hl => ?_⟩
  · show g.bound.insert _ (Circuit.fresh c).1 = _
    rw [hfresh]
    rfl
  · obtain rfl : (Circuit.fresh c).1 = l := Except.ok.inj hl
    rw [hfresh, Stage.getElem?_bind, if_pos rfl]
    exact ⟨rfl, hwithin'⟩

/-- The literal of a name's bit is a fresh one if there is none yet. -/
theorem run_demand (name : String) (bit : Nat) (s : Lowering) : (demand name bit).run s =
    match s.bound[(⟨name, bit⟩ : NamedBit)]? with
    | some l => (.ok l, s)
    | none => (do
      let l ← build Circuit.fresh
      bind name bit l
      return l : Lower Literal).run s := by
  have hbound : (bound? name bit).run s = (.ok s.bound[(⟨name, bit⟩ : NamedBit)]?, s) := rfl
  rw [demand, run_bind, hbound]
  dsimp only
  cases s.bound[(⟨name, bit⟩ : NamedBit)]? <;> rfl

/-- A bit that was demanded has its literal. -/
theorem getElem?_of_demand {name : String} {bit : Nat} {l : Literal} {s s' : Lowering}
    (hrun : (demand name bit).run s = (.ok l, s')) :
    s'.bound[(⟨name, bit⟩ : NamedBit)]? = some l := by
  rw [run_demand] at hrun
  rcases hkey : s.bound[(⟨name, bit⟩ : NamedBit)]? with _ | k <;> rw [hkey] at hrun
  · have hstate : s.bound.insert ⟨name, bit⟩ (Circuit.fresh s.circuit).1 = s'.bound :=
      congrArg (fun p => p.2.bound) hrun
    rw [← hstate, Std.TreeMap.getElem?_insert_self]
    exact congrArg some (Except.ok.inj (congrArg Prod.fst hrun))
  · cases hrun
    exact hkey

/-- A name's bit has a literal from then on. -/
theorem extends_demand (name : String) (bit : Nat) :
    Extends .onDemand g (demand name bit) fun l g' =>
      g'.bound[(⟨name, bit⟩ : NamedBit)]? = some l ∧ Symbols.onDemand.Within g' := by
  intro s required hs
  rw [run_demand, hs.bound]
  rcases hkey : g.bound[(⟨name, bit⟩ : NamedBit)]? with _ | l
  · exact extends_fresh hkey s required hs
  · refine ⟨g, Symbols.grows_refl _ g, hs, fun l' hl' => ?_⟩
    exact ⟨hkey.trans (congrArg some (Except.ok.inj hl')), hs.within⟩

end Lower

/-- Where lowering can start: the constant is there, and without a resolver the frame is that of
the current and the next value. -/
structure Symbols.Ready (symbols : Symbols) (g : Stage) (frame : Frame) : Prop where
  constant : g.net[0]? = some .constant
  frame : symbols = .onDemand → frame = .phases

theorem Symbols.Ready.mono {symbols : Symbols} {g g' : Stage} {frame : Frame}
    (hg : symbols.Ready g frame) (h : g ≤ g') : symbols.Ready g' frame :=
  ⟨Netlist.getElem?_of_isPrefix h.net hg.constant, hg.frame⟩

/-- There are later frames only with a resolver. -/
theorem Symbols.Ready.later {symbols : Symbols} {g : Stage} {frame : Frame}
    (hg : symbols.Ready g frame) (h : symbols.multiStep = true) (offset : Nat) :
    symbols.Ready g (frame.later offset) :=
  ⟨hg.constant, fun hsymbols => by rw [hsymbols] at h; cases h⟩

namespace Lower

variable {symbols : Symbols} {g : Stage} {frame : Frame}

theorem extends_bit (hg : symbols.Ready g frame) (phase : Phase) (name : String) (i : Nat) :
    Extends symbols g (symbols.bit phase frame name i) fun l g' =>
      l.Means symbols g' fun trace => trace name i (phase.timeframe frame) := by
  cases symbols with
  | mapped r => cases phase <;> exact extends_ask r name i _
  | onDemand =>
    obtain rfl := hg.frame rfl
    cases phase
    · exact (extends_demand name i).imp fun l g' _ ⟨hl, hwithin⟩ =>
        Symbols.means_of_literal? (t := 0) hwithin hl
    · exact (extends_demand (Symbols.primed name) i).imp fun l g' _ ⟨hl, hwithin⟩ =>
        Symbols.means_of_literal? (t := 1) hwithin hl

/-- The bits of a variable from a number on have the values of the trace. -/
theorem extends_wordFrom (hg : symbols.Ready g frame) (phase : Phase) (name : String)
    (i count : Nat) :
    Extends symbols g (symbols.wordFrom phase frame name i count) fun w g' =>
      w.Means symbols g' fun trace => (List.range' i count).map fun j =>
        trace name j (phase.timeframe frame) := by
  induction count generalizing i g with
  | zero => exact .pure Word.means_nil
  | succ count ih =>
    refine (extends_bit hg phase name i).bind fun l g₁ h₁ hl => ?_
    refine (ih (hg.mono h₁) (i + 1)).bind fun w g₂ h₂ hw => .pure ?_
    exact Word.Means.cons (hl.mono h₂) hw

/-- The word of a variable has the variable's bits in the timeframe of its phase. -/
theorem extends_word (hg : symbols.Ready g frame) (phase : Phase) (name : String) (width : Nat) :
    Extends symbols g (symbols.word phase frame name width) fun w g' =>
      w.Means symbols g' fun trace => (List.range width).map fun i =>
        trace name i (phase.timeframe frame) := by
  rw [List.range_eq_range']
  exact extends_wordFrom hg phase name 0 width

end Lower

/-! ## Resolvers -/

/-- On every state whose circuit fits a netlist, a computation adds nothing but gates, and its
result, if there is one, has a property on the netlist with these gates. -/
def Lower.AddsGates {α : Type} (net : Netlist) (x : Lower α) (post : α → Netlist → Prop) : Prop :=
  ∀ s required, s.circuit.Fits net required → ∃ keys : List GateKey,
    (x.run s).2.circuit.Fits (net ++ keys.map .gate) required ∧
      ∀ a, (x.run s).1 = .ok a → post a (net ++ keys.map .gate)

theorem Lower.AddsGates.pure {α : Type} {net : Netlist} {post : α → Netlist → Prop} {a : α}
    (h : post a net) : AddsGates net (Pure.pure a) post := by
  intro s required hs
  refine ⟨[], ?_⟩
  rw [List.map_nil, List.append_nil]
  exact ⟨hs, fun b hb => Except.ok.inj hb ▸ h⟩

namespace Resolver

/-- The values of the bits that a resolver has literals for, and the values of another trace for
all other bits. -/
def trace (r : Resolver) (rest : Trace) (v : Valuation) : Trace := fun name bit t =>
  match r.resolve name bit t with
  | .ok l => l.eval v
  | .error _ => rest name bit t

/-- The literals of a resolver have variables of a netlist. -/
def Within (net : Netlist) (r : Resolver) : Prop :=
  ∀ name bit t l, r.resolve name bit t = .ok l → l.var < net.length

theorem Within.mono {net net' : Netlist} {r : Resolver} (hr : r.Within net) (h : net <+: net') :
    r.Within net' := fun name bit t l hl =>
  Nat.lt_of_lt_of_le (hr name bit t l hl) h.length_le

/-- The trace of a resolver is a matter of the values of the variables that its literals have. -/
theorem Within.trace_congr {net : Netlist} {r : Resolver} (hr : r.Within net) (rest : Trace)
    {v v' : Valuation} (h : ∀ x < net.length, v' x = v x) : r.trace rest v' = r.trace rest v := by
  funext name bit t
  unfold trace
  cases hl : r.resolve name bit t with
  | ok l => simp only [Literal.eval, h _ (hr name bit t l hl)]
  | error miss => rfl

/-- A trace that has the values of a resolver's literals is the resolver's trace. -/
theorem trace_eq {r : Resolver} {rest : Trace} {v : Valuation}
    (h : ∀ name bit t l, r.resolve name bit t = .ok l → l.eval v = rest name bit t) :
    r.trace rest v = rest := by
  funext name bit t
  unfold trace
  split
  · rename_i l hl
    exact h name bit t l hl
  · rfl

theorem resolve_of_literal? {r : Resolver} {g : Stage} {name : String} {bit t : Nat} {l : Literal}
    (h : (Symbols.mapped r).literal? g name bit t = some l) : r.resolve name bit t = .ok l := by
  simp only [Symbols.literal?] at h
  cases hresolve : r.resolve name bit t <;> rw [hresolve] at h
  · cases h
  · exact congrArg Except.ok (Option.some.inj h)

/-- Every assignment that follows a netlist shows the resolver's trace. -/
theorem shows_trace (r : Resolver) (rest : Trace) {g : Stage} {v : Valuation}
    (hv : g.net.Holds v) : (Symbols.mapped r).Shows g v (r.trace rest v) := by
  refine ⟨hv, trivial, fun name bit t l hl => ?_⟩
  rw [trace, resolve_of_literal? hl]

/-- With a resolver a computation that requires nothing adds gates only. -/
theorem addsGates_of_extends {α : Type} {r : Resolver} {net : Netlist} (hr : r.Within net)
    {x : Lower α} {post : α → Netlist → Prop}
    (hx : ∀ g : Stage, g.net = net → Lower.Extends (.mapped r) g x fun a g' => post a g'.net) :
    Lower.AddsGates net x post := by
  intro s required hs
  have hwithin : (Symbols.mapped r).Within ⟨net, s.bound⟩ :=
    fun name bit t l hl => hr name bit t l (resolve_of_literal? hl)
  obtain ⟨g', hgrows, hfits, hpost⟩ := hx ⟨net, s.bound⟩ rfl s required ⟨hs, rfl, hwithin⟩
  obtain ⟨keys, rfl⟩ := hgrows.gates nofun
  exact ⟨keys, hfits.circuit, hpost⟩

end Resolver

end BitUnroll
