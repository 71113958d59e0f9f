import BitUnroll.Expr.Meaning
import BitUnroll.Lower.Basic
import BitUnroll.Proofs.Circuit.Denotation
import Mathlib.Order.Basic

/-!
# Stages of lowering

Lowering extends a netlist and may hand out literals to names. A stage has both, and later stages
keep what earlier ones have. At a stage the literals of variables show the traces that have their
values, and a literal means a function of traces if it has the function's value wherever a trace is
shown. With a resolver the variables' literals are those of the resolver; without one they are
those of the names, and the next value of a variable is the current value of another one.

## Main definitions

* `Stage`: a netlist and the literals of names.
* `Symbols.literal?`: the literal of a variable's bit in a timeframe.
* `Symbols.Shows`: an assignment shows a trace.
* `Literal.Means`, `Word.Means`: what literals and words stand for over all traces.
* `Symbols.Grows`: whatever an earlier stage shows can be shown by a later one.
-/

namespace BitUnroll

/-- The timeframe of a phase. -/
def Phase.timeframe (phase : Phase) (frame : Frame) : Nat :=
  match phase with
  | .current => frame.current
  | .next => frame.next

/-- The netlist of a circuit, with the literals that were handed out to names. -/
structure Stage where
  net : Netlist
  bound : Std.TreeMap NamedBit Literal NamedBit.order

namespace Stage

/-- A later stage has the same sources, then others, and the same literals of the same names. -/
structure Le (g g' : Stage) : Prop where
  net : g.net <+: g'.net
  bound : ∀ (key : NamedBit) (l : Literal), g.bound[key]? = some l → g'.bound[key]? = some l

instance : Preorder Stage where
  le := Le
  le_refl _ := ⟨List.prefix_rfl, fun _ _ h => h⟩
  le_trans _ _ _ h h' := ⟨h.net.trans h'.net, fun key l hl => h'.bound key l (h.bound key l hl)⟩

/-- A stage with more sources. -/
def append (g : Stage) (more : Netlist) : Stage := { g with net := g.net ++ more }

@[simp] theorem net_append (g : Stage) (more : Netlist) : (g.append more).net = g.net ++ more := rfl

theorem le_append (g : Stage) (more : Netlist) : g ≤ g.append more :=
  ⟨List.prefix_append .., fun _ _ h => h⟩

/-- A stage with one more literal of a name. -/
def bind (g : Stage) (key : NamedBit) (l : Literal) : Stage :=
  { g with bound := g.bound.insert key l }

theorem getElem?_bind (g : Stage) (key other : NamedBit) (l : Literal) :
    (g.bind key l).bound[other]? = if key = other then some l else g.bound[other]? := by
  simp only [bind, Std.TreeMap.getElem?_insert, Std.LawfulEqCmp.compare_eq_iff_eq]

theorem le_bind {g : Stage} {key : NamedBit} (hkey : g.bound[key]? = none) (l : Literal) :
    g ≤ g.bind key l := by
  refine ⟨List.prefix_rfl, fun other k hk => ?_⟩
  rw [getElem?_bind, if_neg, hk]
  rintro rfl
  rw [hkey] at hk
  cases hk

end Stage

namespace Symbols

variable {symbols : Symbols} {g g' g'' : Stage} {v : Valuation} {trace : Trace}

/-! ## Variables -/

/-- The literal that a variable's bit has in a timeframe, if it has one. Without a resolver there
are a current and a next timeframe, where the variable goes by another name. -/
def literal? (symbols : Symbols) (g : Stage) (name : String) (bit t : Nat) : Option Literal :=
  match symbols with
  | .mapped r => (r.resolve name bit t).toOption
  | .onDemand =>
    match Phase.ofTimeframe? t with
    | some .current => g.bound[(⟨name, bit⟩ : NamedBit)]?
    | some .next => g.bound[(⟨primed name, bit⟩ : NamedBit)]?
    | none => none

/-- All literals of variables have variables of the netlist. -/
def Within (symbols : Symbols) (g : Stage) : Prop :=
  ∀ name bit t l, symbols.literal? g name bit t = some l → l.var < g.net.length

/-- The traces that the variables of some symbols can have. Without a resolver the next value of a
variable is the current value of the variable with its other name. -/
def Allows (symbols : Symbols) (trace : Trace) : Prop :=
  match symbols with
  | .mapped _ => True
  | .onDemand => ∀ name bit, trace name bit 1 = trace (primed name) bit 0

/-- An assignment follows the netlist, and the variables' literals have the values of a trace. -/
structure Shows (symbols : Symbols) (g : Stage) (v : Valuation) (trace : Trace) : Prop where
  holds : g.net.Holds v
  allowed : symbols.Allows trace
  agrees : ∀ name bit t l, symbols.literal? g name bit t = some l → l.eval v = trace name bit t

theorem literal?_mono (h : g ≤ g') {name : String} {bit t : Nat} {l : Literal}
    (hl : symbols.literal? g name bit t = some l) : symbols.literal? g' name bit t = some l := by
  cases symbols with
  | mapped r => exact hl
  | onDemand =>
    simp only [literal?] at hl ⊢
    split at hl
    · exact h.bound _ l hl
    · exact h.bound _ l hl
    · cases hl

/-- What a stage shows, earlier ones show as well. -/
theorem Shows.anti (h : g ≤ g') (hv : symbols.Shows g' v trace) : symbols.Shows g v trace :=
  ⟨hv.holds.of_isPrefix h.net, hv.allowed,
    fun name bit t l hl => hv.agrees name bit t l (literal?_mono h hl)⟩

@[simp] theorem literal?_append (more : Netlist) (name : String) (bit t : Nat) :
    symbols.literal? (g.append more) name bit t = symbols.literal? g name bit t := by
  cases symbols <;> rfl

theorem within_append (hg : symbols.Within g) (more : Netlist) :
    symbols.Within (g.append more) := by
  intro name bit t l hl
  have hlt := hg name bit t l (by rwa [literal?_append] at hl)
  rw [Stage.net_append, List.length_append]
  omega

/-- What a stage shows is a matter of the netlist's variables. -/
theorem Shows.congr (hnet : g.net.Ordered) (hg : symbols.Within g) {v' : Valuation}
    (h : ∀ x < g.net.length, v' x = v x) (hv : symbols.Shows g v trace) :
    symbols.Shows g v' trace where
  holds := hv.holds.congr hnet fun x hx => (h x hx).symm
  allowed := hv.allowed
  agrees name bit t l hl := by
    rw [Literal.eval, h _ (hg name bit t l hl)]
    exact hv.agrees name bit t l hl

/-- Without a resolver all literals of names count. -/
theorem within_onDemand : onDemand.Within g ↔
    ∀ (key : NamedBit) (l : Literal), g.bound[key]? = some l → l.var < g.net.length := by
  constructor
  · rintro hg ⟨name, bit⟩ l hl
    exact hg name bit 0 l hl
  · intro hg name bit t l hl
    simp only [literal?] at hl
    split at hl
    · exact hg _ l hl
    · exact hg _ l hl
    · cases hl

theorem shows_onDemand : onDemand.Shows g v trace ↔ g.net.Holds v ∧ onDemand.Allows trace ∧
    ∀ (key : NamedBit) (l : Literal), g.bound[key]? = some l →
      l.eval v = trace key.name key.bit 0 := by
  constructor
  · rintro ⟨hv, hallowed, hagrees⟩
    exact ⟨hv, hallowed, fun key l hl => hagrees key.name key.bit 0 l hl⟩
  · rintro ⟨hv, hallowed, hagrees⟩
    refine ⟨hv, hallowed, fun name bit t l hl => ?_⟩
    match t with
    | 0 => exact hagrees ⟨name, bit⟩ l hl
    | 1 => exact (hagrees ⟨primed name, bit⟩ l hl).trans (hallowed name bit).symm
    | t + 2 => cases hl

theorem within_bind (hg : onDemand.Within g) {l : Literal} (hl : l.var < g.net.length)
    (key : NamedBit) : onDemand.Within (g.bind key l) := by
  refine within_onDemand.2 fun other k hk => ?_
  rw [Stage.getElem?_bind] at hk
  split at hk
  · exact Option.some.inj hk ▸ hl
  · exact within_onDemand.1 hg other k hk

/-- A name's first literal shows one more bit. -/
theorem shows_bind {key : NamedBit} (hkey : g.bound[key]? = none) {l : Literal} :
    onDemand.Shows (g.bind key l) v trace ↔
      onDemand.Shows g v trace ∧ l.eval v = trace key.name key.bit 0 := by
  constructor
  · intro hv
    refine ⟨hv.anti (Stage.le_bind hkey l), (shows_onDemand.1 hv).2.2 key l ?_⟩
    rw [Stage.getElem?_bind, if_pos rfl]
  · rintro ⟨hv, hl⟩
    refine shows_onDemand.2 ⟨hv.holds, hv.allowed, fun other k hk => ?_⟩
    rw [Stage.getElem?_bind] at hk
    split at hk
    · rename_i h
      rw [← h, ← Option.some.inj hk, hl]
    · exact (shows_onDemand.1 hv).2.2 other k hk

/-! ## Growth -/

/-- A later stage, which shows whatever the earlier one does by values of the variables that are
new. With a resolver the new sources are gates. -/
structure Grows (symbols : Symbols) (g g' : Stage) : Prop where
  le : g ≤ g'
  gates : symbols ≠ .onDemand → ∃ keys : List GateKey, g' = g.append (keys.map .gate)
  shows : ∀ v trace, symbols.Shows g v trace → ∃ v' : Valuation,
    (∀ x < g.net.length, v' x = v x) ∧ symbols.Shows g' v' trace

theorem grows_refl (symbols : Symbols) (g : Stage) : symbols.Grows g g where
  le := le_rfl
  gates _ := ⟨[], by simp [Stage.append]⟩
  shows v _ hv := ⟨v, fun _ _ => rfl, hv⟩

theorem Grows.trans (h : symbols.Grows g g') (h' : symbols.Grows g' g'') :
    symbols.Grows g g'' where
  le := h.le.trans h'.le
  gates hsymbols := by
    obtain ⟨keys, rfl⟩ := h.gates hsymbols
    obtain ⟨more, rfl⟩ := h'.gates hsymbols
    exact ⟨keys ++ more, by simp [Stage.append]⟩
  shows v trace hv := by
    obtain ⟨v₁, hsame, hv₁⟩ := h.shows v trace hv
    obtain ⟨v₂, hsame', hv₂⟩ := h'.shows v₁ trace hv₁
    refine ⟨v₂, fun x hx => ?_, hv₂⟩
    rw [hsame' x (Nat.lt_of_lt_of_le hx h.le.net.length_le), hsame x hx]

end Symbols

/-- An assignment that follows a netlist can be continued along all further sources. -/
theorem Netlist.exists_holds_append {net more : Netlist} (hnet : Netlist.Ordered (net ++ more))
    {v : Valuation} (hv : net.Holds v) :
    ∃ v' : Valuation, (∀ x < net.length, v' x = v x) ∧ Netlist.Holds (net ++ more) v' := by
  have hprefix : net <+: net ++ more := List.prefix_append ..
  have hholds := Netlist.holds_settle hnet v
  refine ⟨_, fun x hx => ?_, hholds⟩
  have hbefore := (hholds.of_isPrefix hprefix).eq_settle (hnet.of_isPrefix hprefix)
    fun y hy => Netlist.settle_of_input v (Netlist.getElem?_of_isPrefix hprefix hy)
  rw [hbefore x hx, hv.eq_settle (hnet.of_isPrefix hprefix) (fun _ _ => rfl) x hx]

/-- Gates are further sources. -/
theorem Symbols.grows_gates {symbols : Symbols} {g : Stage} {keys : List GateKey}
    (hnet : Netlist.Ordered (g.net ++ keys.map .gate)) (hg : symbols.Within g) :
    symbols.Grows g (g.append (keys.map .gate)) where
  le := g.le_append _
  gates _ := ⟨keys, rfl⟩
  shows v trace hv := by
    obtain ⟨v', hsame, hholds⟩ := Netlist.exists_holds_append hnet hv.holds
    have hbefore := hv.congr (hnet.of_isPrefix (List.prefix_append ..)) hg hsame
    exact ⟨v', hsame, hholds, hv.allowed, by simpa using hbefore.agrees⟩

/-- A fresh variable is one more source, and its literal can be handed out to a name. -/
theorem Symbols.grows_fresh {g : Stage} {key : NamedBit} (hnet : g.net.Ordered)
    (hg : Symbols.onDemand.Within g) (hkey : g.bound[key]? = none) :
    Symbols.onDemand.Grows g ((g.append [.input]).bind key ⟨g.net.length, true⟩) where
  le := (g.le_append [.input]).trans (Stage.le_bind (g := g.append [.input]) hkey _)
  gates h := absurd rfl h
  shows v trace hv := by
    -- the new variable is free to have the value that the trace says
    have hsame : ∀ x < g.net.length,
        Function.update v g.net.length (trace key.name key.bit 0) x = v x :=
      fun x hx => Function.update_of_ne (Nat.ne_of_lt hx) ..
    have hbefore := hv.congr hnet hg hsame
    refine ⟨_, hsame, (shows_bind (g := g.append [.input]) hkey).2 ⟨⟨?_, hv.allowed, ?_⟩, ?_⟩⟩
    · exact Netlist.holds_concat.2 ⟨hbefore.holds, rfl⟩
    · simpa using hbefore.agrees
    · rw [Literal.eval_positive, Function.update_self]

/-! ## Meaning -/

/-- A literal has a variable of the netlist, and the value of `f` wherever a trace is shown. -/
structure Literal.Means (symbols : Symbols) (g : Stage) (l : Literal) (f : Trace → Bool) :
    Prop where
  lt : l.var < g.net.length
  eval_eq : ∀ v trace, symbols.Shows g v trace → l.eval v = f trace

/-- The literals of a word have variables of the netlist, and the bits of `f` wherever a trace is
shown. -/
structure Word.Means (symbols : Symbols) (g : Stage) (w : Word) (f : Trace → Bits) : Prop where
  within : w.Within g.net
  bits_eq : ∀ v trace, symbols.Shows g v trace → w.bits v = f trace

section

variable {symbols : Symbols} {g g' : Stage} {l : Literal} {w : Word} {f : Trace → Bool}
  {h : Trace → Bits}

theorem Literal.Means.mono (hl : l.Means symbols g f) (hg : g ≤ g') : l.Means symbols g' f :=
  ⟨Nat.lt_of_lt_of_le hl.lt hg.net.length_le, fun v trace hv => hl.eval_eq v trace (hv.anti hg)⟩

theorem Word.Means.mono (hw : w.Means symbols g h) (hg : g ≤ g') : w.Means symbols g' h :=
  ⟨hw.within.mono hg.net, fun v trace hv => hw.bits_eq v trace (hv.anti hg)⟩

theorem Literal.Means.neg (hl : l.Means symbols g f) : (-l).Means symbols g fun trace => !f trace :=
  ⟨hl.lt, fun v trace hv => by rw [Literal.eval_neg, hl.eval_eq v trace hv]⟩

/-- What a literal denotes whatever is shown, it means. -/
theorem Literal.Denotes.means {value : Bool} (hl : l.Denotes g.net fun _ => value) :
    l.Means symbols g fun _ => value := ⟨hl.lt, fun v _ hv => hl.eval_eq v hv.holds⟩

theorem Word.Denotes.means {bits : Bits} (hw : w.Denotes g.net fun _ => bits) :
    w.Means symbols g fun _ => bits := ⟨hw.within, fun v _ hv => hw.bits_eq v hv.holds⟩

theorem Word.means_nil : Word.Means symbols g [] fun _ => [] := Word.denotes_nil.means

theorem Word.Means.cons (hl : l.Means symbols g f) (hw : w.Means symbols g h) :
    Word.Means symbols g (l :: w) fun trace => f trace :: h trace :=
  ⟨Word.within_cons.2 ⟨hl.lt, hw.within⟩, fun v trace hv => by
    rw [Word.bits_cons, hl.eval_eq v trace hv, hw.bits_eq v trace hv]⟩

theorem Word.Means.of_cons (hw : Word.Means symbols g (l :: w) h) :
    (l.Means symbols g fun trace => (h trace).headD false) ∧
      w.Means symbols g fun trace => (h trace).tail := by
  obtain ⟨hl, hwithin⟩ := Word.within_cons.1 hw.within
  refine ⟨⟨hl, fun v trace hv => ?_⟩, hwithin, fun v trace hv => ?_⟩ <;>
    rw [← hw.bits_eq v trace hv] <;> rfl

/-- The literal of a variable's bit means the bit. -/
theorem Symbols.means_of_literal? (hg : symbols.Within g) {name : String} {bit t : Nat}
    (hl : symbols.literal? g name bit t = some l) :
    l.Means symbols g fun trace => trace name bit t :=
  ⟨hg name bit t l hl, fun _ _ hv => hv.agrees name bit t l hl⟩

end

end BitUnroll
