import BitUnroll.Proofs.Lowering.Footprint
import BitUnroll.Proofs.Lowering.Restriction

/-!
# Equalities that bind variables

Without a resolver, an equality between a variable without literals and an expression is required
by handing out the expression's bits to the variable's name. Whatever became of the equalities on
the way, requiring expressions leaves the same values for the bits of all variables as requiring
their truth values does. The variables and the expression may be of any types, if the Boolean
constants among its operands are zero or one: any other number is true but has a last bit of its
own.

## Main definitions

* `Expr.BinaryConstants`: all Boolean constants are zero or one.
* `Lowering.readings`: the values of the names' bits in all models.

## Main statements

* `Expr.truthAt_equality_iff`: a variable equals an expression if the bits are the same.
* `Expr.restricts_require`: requiring an expression keeps the traces that it is true for.
* `Expr.readings_require`: requiring expressions leaves the readings of their truth values.
-/

namespace BitUnroll

/-- The Boolean constants of an expression are zero or one. -/
inductive Expr.BinaryConstants (types : TypeTable) : Expr → Prop
  | node {kind : Kind} {ty : Ty} {es : List Expr}
      (constant : ∀ n, kind = .constant n → types.isBool ty = true → n = 0 ∨ n = 1)
      (operands : ∀ e ∈ es, BinaryConstants types e) : BinaryConstants types (.node kind ty es)

namespace Expr

variable {types : TypeTable} {trace : Trace} {lhs rhs e : Expr} {name : String} {frame : Frame}

@[simp] theorem binaryConstants_node {kind : Kind} {ty : Ty} {es : List Expr} :
    (node kind ty es).BinaryConstants types ↔
      (∀ n, kind = .constant n → types.isBool ty = true → n = 0 ∨ n = 1) ∧
        ∀ e ∈ es, e.BinaryConstants types := by
  constructor
  · rintro ⟨constant, operands⟩
    exact ⟨constant, operands⟩
  · rintro ⟨constant, operands⟩
    exact .node constant operands

/-! ## Truth values and bits -/

/-- An expression that gives bits by nature is true if they are a single one, unless it is a
Boolean constant. -/
theorem truthAt_of_isWord (hword : e.kind.isWord = true)
    (hconstant : ∀ n, e.kind = .constant n → types.isBool e.ty = false) :
    e.truthAt types trace frame = (e.bitsAt types trace frame == [true]) := by
  obtain ⟨kind, ty, es⟩ := e
  cases kind with
  | constant n =>
    have hbool : types.isBool ty = false := hconstant n rfl
    show (if types.isBool ty then _ else _) = _
    rw [hbool]
    rfl
  | symbol | nextSymbol | complement | negate | binary | extractBits | concat | cast => rfl
  | truth | nil | not | connective | implies | equality | ite | relation | extractBit | temporal =>
    cases hword

/-- The bits of a conditional between words are those of one of its branches, and so is its truth
value. -/
theorem exists_branch {ty : Ty} {es : List Expr} {b : Bool} (hword : types.isBool ty = false)
    (h : (node .ite ty es).bitsAt types trace frame = [b]) :
    ∃ a ∈ es, a.bitsAt types trace frame = [b] ∧
      (node .ite ty es).truthAt types trace frame = a.truthAt types trace frame := by
  have hbits : (node .ite ty es).bitsAt types trace frame =
      Meaning.wordy types trace (node .ite ty es) (meanings types trace es) frame := by
    show (if !types.isBool ty then _ else _) = _
    rw [hword]
    rfl
  rw [hbits] at h
  rcases es with _ | ⟨c, _ | ⟨x, _ | ⟨y, _ | ⟨z, es⟩⟩⟩⟩
  · cases h
  · cases h
  · cases h
  · change (if c.truthAt types trace frame then x.bitsAt types trace frame
      else y.bitsAt types trace frame) = [b] at h
    show ∃ a ∈ [c, x, y], _ ∧ (if c.truthAt types trace frame then x.truthAt types trace frame
      else y.truthAt types trace frame) = a.truthAt types trace frame
    split at h
    · exact ⟨x, by simp, h, by simp [*]⟩
    · exact ⟨y, by simp, h, by simp [*]⟩
  · cases h

/-- An expression with a single bit has the truth value of that bit. -/
theorem truthAt_of_bitsAt (he : e.BinaryConstants types) {b : Bool}
    (h : e.bitsAt types trace frame = [b]) : e.truthAt types trace frame = b := by
  induction he with
  | @node kind ty es constant operands ih =>
    cases kind with
    | constant n =>
      cases hbool : types.isBool ty with
      | false =>
        rw [truthAt_of_isWord rfl fun _ _ => hbool, h]
        simp
      | true =>
        change Bits.ofInt (types.width ty) n = [b] at h
        show (if types.isBool ty then n != 0 else _) = b
        rw [TypeTable.width_of_isBool hbool] at h
        rw [hbool]
        rcases constant n rfl hbool with rfl | rfl <;> exact (List.cons.inj h).1
    | ite =>
      cases hbool : types.isBool ty with
      | false =>
        obtain ⟨a, ha, hbits, htruth⟩ := exists_branch hbool h
        exact htruth.trans (ih a ha hbits)
      | true =>
        change (if !types.isBool ty then _ else _) = [b] at h
        rw [hbool] at h
        exact (List.cons.inj h).1
    | symbol | nextSymbol | complement | negate | binary | extractBits | concat | cast =>
      refine Eq.trans (truthAt_of_isWord rfl nofun) ?_
      rw [h]
      simp
    | truth | nil | not | connective | implies | equality | relation | extractBit | temporal =>
      exact (List.cons.inj h).1

/-- A variable equals an expression of its width if the bits are the same. -/
theorem truthAt_equality_iff (hlhs : lhs.kind = .symbol name) (hrhs : rhs.BinaryConstants types)
    (hlength : (rhs.bitsAt types trace frame).length = types.width lhs.ty) (ty : Ty) :
    (node (.equality false) ty [lhs, rhs]).truthAt types trace frame = true ↔
      lhs.bitsAt types trace frame = rhs.bitsAt types trace frame := by
  have hequality : (node (.equality false) ty [lhs, rhs]).truthAt types trace frame =
      if types.isBool lhs.ty then
        lhs.truthAt types trace frame == rhs.truthAt types trace frame
      else lhs.bitsAt types trace frame == rhs.bitsAt types trace frame := by
    show (false ^^ Meaning.equality types _ _ frame) = _
    rw [Bool.false_xor, Meaning.equality, expr_meaning]
    rfl
  rw [hequality]
  split
  · rename_i hbool
    have hbits : lhs.bitsAt types trace frame = _ := bitsAt_of_symbol hlhs frame
    rw [TypeTable.width_of_isBool hbool] at hbits hlength
    obtain ⟨b, hb⟩ := List.length_eq_one_iff.1 hlength
    have hsymbol : lhs.truthAt types trace frame = trace name 0 frame.current := by
      rw [truthAt_of_isWord (by rw [hlhs]; rfl) (by simp [hlhs]), hbits]
      simp
    rw [hsymbol, truthAt_of_bitsAt hrhs hb, hbits, hb]
    simp
  · exact beq_iff_eq

/-! ## Words -/

open Lower (Extends Restricts)

variable {g : Stage} {a b w : Word} {t u : Trace → Bits}

/-- Making two words of one length equal keeps the traces where their bits are the same. -/
theorem restricts_requireEqualBits {symbols : Symbols} (ha : a.Means symbols g t)
    (hb : b.Means symbols g u) (hlength : a.length = b.length) :
    Restricts symbols g (requireEqualBits a b) (fun trace => t trace = u trace)
      fun _ _ => True := by
  induction a generalizing b g t u with
  | nil =>
    obtain rfl := List.length_eq_zero_iff.1 hlength.symm
    refine (Restricts.pure trivial).congr fun v trace hv => ?_
    simp [← ha.bits_eq v trace hv, ← hb.bits_eq v trace hv]
  | cons x a ih =>
    obtain ⟨y, b, rfl⟩ := List.exists_cons_of_length_eq_add_one hlength.symm
    obtain ⟨hx, ha'⟩ := ha.of_cons
    obtain ⟨hy, hb'⟩ := hb.of_cons
    refine ((Lower.restricts_requireEqual hx hy).bind fun _ g₁ h₁ _ =>
      ih (ha'.mono h₁) (hb'.mono h₁) (Nat.succ.inj hlength)).congr fun v trace hv => ?_
    rw [← ha.bits_eq v trace hv, ← hb.bits_eq v trace hv]
    simp

/-- Handing out the bits of a word to a name without literals keeps the traces where the name has
these bits. -/
theorem restricts_bindFrom (hw : w.Means .onDemand g t) (i : Nat)
    (hfree : ∀ j, i ≤ j → j < i + w.length → g.bound[(⟨name, j⟩ : NamedBit)]? = none) :
    Restricts .onDemand g (bindFrom name i w)
      (fun trace => t trace = (List.range' i w.length).map fun j => trace name j 0)
      fun _ _ => True := by
  induction w generalizing i g t with
  | nil =>
    refine (Restricts.pure trivial).congr fun v trace hv => ?_
    simp [← hw.bits_eq v trace hv]
  | cons l w ih =>
    obtain ⟨hl, hw'⟩ := hw.of_cons
    refine ((Lower.restricts_bind hl (hfree i (Nat.le_refl i) (by simp))).bind
      fun _ g₁ h₁ hg₁ => ih (hw'.mono h₁) (i + 1) fun j hle hlt => ?_).congr fun v trace hv => ?_
    · rw [hg₁, Stage.getElem?_bind, if_neg (by simp; omega)]
      exact hfree j (by omega) (by rw [List.length_cons]; omega)
    · rw [← hw.bits_eq v trace hv, List.length_cons, List.range'_succ]
      simp

theorem extends_anyBound {symbols : Symbols} (name : String) (width : Nat) :
    Extends symbols g (anyBound name width) fun bound g' =>
      bound = (List.range width).any fun i => (g'.bound[(⟨name, i⟩ : NamedBit)]?).isSome := by
  intro s required hs
  refine ⟨g, symbols.grows_refl g, hs, fun bound hbound => ?_⟩
  rw [← Except.ok.inj hbound, hs.bound]

/-! ## Requirements -/

theorem restricts_requireTruth {symbols : Symbols} (hg : symbols.Ready g frame) (e : Expr) :
    Restricts symbols g (e.requireTruth ⟨types, symbols⟩ frame)
      (fun trace => e.truthAt types trace frame = true) fun _ _ => True :=
  ((e.sound types symbols).truth g frame hg).then fun _ _ _ hl => Lower.restricts_require hl

/-- A variable that had no literals before is made equal to an expression by handing out the
expression's bits to it, or bit by bit. -/
theorem restricts_bindWord (hg : Symbols.onDemand.Ready g frame) (hlhs : lhs.kind = .symbol name)
    (hrhs : rhs.BinaryConstants types) (ty : Ty) :
    Restricts .onDemand g (bindWord types name lhs rhs frame)
      (fun trace =>
        (node (.equality false) ty [lhs, rhs]).truthAt types trace frame = true)
      fun bound _ => bound = true := by
  unfold bindWord
  have hown : ∀ trace, lhs.bitsAt types trace frame =
      (List.range (types.width lhs.ty)).map fun i => trace name i frame.current :=
    fun trace => bitsAt_of_symbol hlhs frame
  refine ((rhs.sound types .onDemand).word g frame hg).then fun w g₁ h₁ hw => ?_
  have hg := hg.mono h₁
  refine (extends_anyBound name _).then fun late g₂ h₂ hlate => ?_
  have hg := hg.mono h₂
  have hw := hw.mono h₂
  split
  · refine ((lhs.sound types .onDemand).word g₂ frame hg).then fun own g₃ h₃ hown' => ?_
    refine (Lower.extends_sameWidth own.length w.length).then fun _ g₄ h₄ hlength => ?_
    have hown' := hown'.mono h₄
    have hw := hw.mono (h₃.trans h₄)
    refine ((restricts_requireEqualBits hown' hw hlength).congr fun v trace hv => ?_).finally
      fun _ _ _ _ => .pure rfl
    refine (truthAt_equality_iff hlhs hrhs ?_ ty).symm
    rw [← hw.bits_eq v trace hv, Word.length_bits, ← hlength, ← Word.length_bits own v,
      hown'.bits_eq v trace hv, hown]
    simp
  · rename_i hfree
    have hlength : w.length = types.width lhs.ty := by
      by_contra hne
      simp [hne] at hfree
    have hnone : late = false := by simpa [hlength] using hfree
    rw [hnone, eq_comm, List.any_eq_false] at hlate
    refine ((restricts_bindFrom hw 0 fun j _ hj => ?_).congr fun v trace hv => ?_).finally
      fun _ _ _ _ => .pure rfl
    · simpa using hlate j (List.mem_range.2 (by omega))
    · obtain rfl := hg.frame rfl
      rw [truthAt_equality_iff hlhs hrhs ?_ ty, hown, hlength, List.range_eq_range', eq_comm]
      · rfl
      · rw [← hw.bits_eq v trace hv, Word.length_bits, hlength]

/-- An equality keeps the traces that it is true for, whether it is required by itself or by its
truth value. -/
theorem restricts_equality (hg : Symbols.onDemand.Ready g frame) (hrhs : rhs.BinaryConstants types)
    (ty : Ty) :
    Restricts .onDemand g
      (require ⟨types, .onDemand⟩ (.node (.equality false) ty [lhs, rhs]) frame)
      (fun trace => (node (.equality false) ty [lhs, rhs]).truthAt types trace frame = true)
      fun _ _ => True := by
  have htruth : ∀ g', g ≤ g' → Restricts .onDemand g'
      (requireTruth ⟨types, .onDemand⟩ (.node (.equality false) ty [lhs, rhs]) frame)
      (fun trace => (node (.equality false) ty [lhs, rhs]).truthAt types trace frame = true)
      fun _ _ => True := fun g' h => restricts_requireTruth (hg.mono h) _
  show Restricts .onDemand g (bindSymbol ⟨types, .onDemand⟩ lhs rhs frame >>= _) _ _
  unfold bindSymbol
  split
  · rename_i name hlhs
    dsimp only
    split
    · exact htruth g le_rfl
    · rw [bind_assoc]
      refine (extends_anyBound name _).then fun early g₁ h₁ _ => ?_
      split
      · exact htruth g₁ h₁
      · refine (restricts_bindWord (hg.mono h₁) hlhs hrhs ty).finally fun bound g₂ h₂ hbound => ?_
        subst hbound
        exact .pure trivial
  · exact htruth g le_rfl

/-- Requiring an expression keeps the traces that it is true for, whatever becomes of its
equalities on the way. -/
theorem restricts_require (he : e.BinaryConstants types) (hg : Symbols.onDemand.Ready g frame) :
    Restricts .onDemand g (e.require ⟨types, .onDemand⟩ frame)
      (fun trace => e.truthAt types trace frame = true) fun _ _ => True := by
  induction e using require_induction generalizing g with
  | conjunction ty es ih =>
    obtain ⟨-, hes⟩ := binaryConstants_node.1 he
    show Restricts .onDemand g (requireAll ⟨types, .onDemand⟩ es frame) _ _
    rw [requireAll_eq_forM]
    refine (Lower.restricts_forM es fun e he g' h => ih e he (hes e he) (hg.mono h)).congr
      fun v trace _ => ?_
    rw [truthAt_of_conjunction rfl, List.all_eq_true]
    rfl
  | equality ty lhs rhs =>
    obtain ⟨-, hes⟩ := binaryConstants_node.1 he
    exact restricts_equality hg (hes rhs (by simp)) ty
  | other e htruth =>
    rw [htruth]
    exact restricts_requireTruth hg e

end Expr

/-! ## Readings -/

/-- The trace of values for the bits of names, where the next value of a variable is that of its
other name. Bits without a value are false. -/
def Symbols.traceOf (reading : NamedBit → Option Bool) : Trace := fun name bit t =>
  match t with
  | 0 => (reading ⟨name, bit⟩).getD false
  | _ => (reading ⟨primed name, bit⟩).getD false

namespace Lowering

variable {s s₁ s₂ : Lowering} {g g₁ g₂ : Stage} {required more₁ more₂ : List Literal}
  {p : Trace → Prop}

/-- The values that an assignment gives to the bits of the names that have literals. -/
def reading (s : Lowering) (v : Valuation) : NamedBit → Option Bool := fun key =>
  (s.bound[key]?).map (·.eval v)

/-- The readings of all models. -/
def readings (s : Lowering) : Set (NamedBit → Option Bool) :=
  {ρ | ∃ v, s.circuit.formula.eval v = true ∧ s.reading v = ρ}

/-- An assignment shows the trace of its own reading. -/
theorem Fits.shows_reading (hs : s.Fits .onDemand g required) {v : Valuation}
    (hv : g.net.Holds v) : Symbols.onDemand.Shows g v (Symbols.traceOf (s.reading v)) := by
  refine Symbols.shows_onDemand.2 ⟨hv, fun _ _ => rfl, fun key l hl => ?_⟩
  show l.eval v = ((s.bound[key]?).map (·.eval v)).getD false
  rw [hs.bound, hl]
  rfl

/-- From one stage, two states where the traces with the same property remain have the same
readings, if the same bits have literals. -/
theorem readings_subset (h₁ : Symbols.onDemand.Restricts g g₁ more₁ p)
    (hs₁ : s₁.Fits .onDemand g₁ (required ++ more₁))
    (h₂ : Symbols.onDemand.Restricts g g₂ more₂ p)
    (hs₂ : s₂.Fits .onDemand g₂ (required ++ more₂))
    (hrequired : ∀ l ∈ required, l.var < g.net.length)
    (hkeys : ∀ key : NamedBit, (s₁.bound[key]?).isSome ↔ (s₂.bound[key]?).isSome) :
    s₁.readings ⊆ s₂.readings := by
  rintro ρ ⟨v, hv, rfl⟩
  obtain ⟨hholds, hmet⟩ := (hs₁.circuit.eval_iff v).1 hv
  rw [List.forall_mem_append] at hmet
  have hshows := hs₁.shows_reading hholds
  have hp := h₁.sound v _ hshows hmet.2
  obtain ⟨v', hsame, hshows', hmore⟩ := h₂.complete v _ (hshows.anti h₁.le) hp
  refine ⟨v', (hs₂.circuit.eval_iff v').2 ⟨hshows'.holds, ?_⟩, funext fun key => ?_⟩
  · refine List.forall_mem_append.2 ⟨fun l hl => ?_, hmore⟩
    rw [Literal.eval, hsame _ (hrequired l hl)]
    exact hmet.1 l hl
  · have hkey := hkeys key
    have hvalue := (Symbols.shows_onDemand.1 hshows').2.2 key
    rw [← hs₂.bound] at hvalue
    simp only [Symbols.traceOf, reading] at hvalue ⊢
    rcases h₁ : s₁.bound[key]? with _ | k <;> rcases h₂ : s₂.bound[key]? with _ | l <;>
      rw [h₁, h₂] at hkey
    · rfl
    · exact absurd (hkey.2 rfl) nofun
    · exact absurd (hkey.1 rfl) nofun
    · rw [Option.map_some, hvalue l h₂, h₁]
      rfl

end Lowering

namespace Expr

/-- **Binding keeps exactly the readings of the truth values.** Start twice from one circuit that
operations lead to, with constants or literals that it handed out as their operands. Once require
each expression of a list, which may bind variables to the other sides of equalities, and once the
literal of each. If both succeed, the same bits of the same names have literals, and the models give
them the same values.

Nothing may have been required before of a literal that was not handed out. The variable of such a
literal is handed out in the end, but not for the same bit in both runs, as one of them needs more
variables than the other one, and so the two sides can differ. -/
theorem readings_require {options : GateOptions} {log : List Entry} {c : Circuit}
    (hc : Session options log c) {types : TypeTable} {es : List Expr}
    (hes : ∀ e ∈ es, e.BinaryConstants types) {s₁ s₂ : Lowering}
    (h₁ : (es.forM fun e => e.require ⟨types, .onDemand⟩ .phases).run { circuit := c } =
      (.ok (), s₁))
    (h₂ : (es.forM fun e => e.requireTruth ⟨types, .onDemand⟩ .phases).run { circuit := c } =
      (.ok (), s₂)) :
    (∀ key : NamedBit, (s₁.bound[key]?).isSome ↔ (s₂.bound[key]?).isSome) ∧
      s₁.readings = s₂.readings := by
  have hkeys : ∀ key : NamedBit, (s₁.bound[key]?).isSome ↔ (s₂.bound[key]?).isSome := by
    intro key
    have hlooks₁ := looks_forM (s := ⟨types, .onDemand⟩) fun e (_ : e ∈ es) =>
      looks_require ⟨types, .onDemand⟩ e .phases
    have hlooks₂ := looks_forM (s := ⟨types, .onDemand⟩) fun e (_ : e ∈ es) =>
      looks_requireTruth (s := ⟨types, .onDemand⟩) e .phases
    rw [hlooks₁.isSome_iff h₁, hlooks₂.isSome_iff h₂]
  obtain ⟨net, required, hc⟩ := hc.exists_explains
  have hstart : Lowering.Fits { circuit := c } .onDemand ⟨net, ∅⟩ required :=
    ⟨hc.fits, rfl, Symbols.within_onDemand.2 fun key l hl => by simp at hl⟩
  have hready : ∀ g : Stage, ⟨net, ∅⟩ ≤ g → Symbols.onDemand.Ready g .phases := fun g h =>
    ⟨Netlist.getElem?_of_isPrefix h.net hc.fits.constant, fun _ => rfl⟩
  obtain ⟨g₁, more₁, hrestricts₁, hs₁, -⟩ := Lower.restricts_forM es
    (fun e he g h => restricts_require (hes e he) (hready g h)) _ _ _ _ hstart h₁
  obtain ⟨g₂, more₂, hrestricts₂, hs₂, -⟩ := Lower.restricts_forM es
    (fun e _ g h => restricts_requireTruth (hready g h) e) _ _ _ _ hstart h₂
  refine ⟨hkeys, Set.Subset.antisymm ?_ ?_⟩
  · exact Lowering.readings_subset hrestricts₁ hs₁ hrestricts₂ hs₂ hc.fits.required_lt hkeys
  · exact Lowering.readings_subset hrestricts₂ hs₂ hrestricts₁ hs₁ hc.fits.required_lt
      fun key => (hkeys key).symm

/-- A variable is bound to a conjunction, and one of the conjuncts is then made equal to a constant.
The truth values need two more variables, one for the bound variable and one for its equality. -/
theorem readings_require_bound :
    let x : Expr := .symbol "x" .bool
    let y : Expr := .symbol "y" .bool
    let z : Expr := .symbol "z" .bool
    let es : List Expr := [.node (.equality false) .bool [x, .conjunction [y, z]],
      .node (.equality false) .bool [y, .constant 1 .bool]]
    ∃ s₁ s₂ : Lowering,
      (es.forM fun e => e.require ⟨.empty, .onDemand⟩ .phases).run { circuit := .initial {} } =
        (.ok (), s₁) ∧
      (es.forM fun e => e.requireTruth ⟨.empty, .onDemand⟩ .phases).run
        { circuit := .initial {} } = (.ok (), s₂) ∧
      s₂.circuit.formula.numVars = s₁.circuit.formula.numVars + 2 ∧
      (∀ key : NamedBit, (s₁.bound[key]?).isSome ↔ (s₂.bound[key]?).isSome) ∧
      s₁.readings = s₂.readings := by
  intro x y z es
  have hes : ∀ e ∈ es, e.BinaryConstants .empty := by
    simp [es, x, y, z, symbol, conjunction, constant]
  have h₁ : (es.forM fun e => e.require ⟨.empty, .onDemand⟩ .phases).run
      { circuit := .initial {} } = (.ok (), _) := Prod.ext (by decide +kernel) rfl
  have h₂ : (es.forM fun e => e.requireTruth ⟨.empty, .onDemand⟩ .phases).run
      { circuit := .initial {} } = (.ok (), _) := Prod.ext (by decide +kernel) rfl
  exact ⟨_, _, h₁, h₂, by decide +kernel, readings_require .start hes h₁ h₂⟩

end Expr

end BitUnroll
