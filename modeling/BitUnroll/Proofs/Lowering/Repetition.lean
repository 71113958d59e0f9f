import BitUnroll.Proofs.Lowering.Composition
import BitUnroll.Proofs.Lowering.Footprint
import Mathlib.Logic.Relation

/-!
# Lowering an expression again

Where gates are shared, an expression that was lowered has left its gates behind, and its variables
have their literals. Nothing that is done to a circuit afterwards takes a shared gate away, and a
name keeps the literals that it has: an equality that is required binds only a name of which no bit
has a literal. So to lower the expression again, however much later, finds every gate and every
literal where it left them, and adds nothing.

## Main definitions

* `Lowering.Kept`: a later state has the shared gates and the names' literals of an earlier one.
* `Lowering.Step`, `Lowering.Later`: what can be done on one circuit, and what it leads to.

## Main statements

* `Lower.Composed.again`: a computation made of gates and questions.
* `Lowering.Later.kept`: what every sequence of conversions, assertions and operations keeps.
* `Expr.lowered_again`: an expression that is lowered again.
-/

namespace BitUnroll

/-! ## Gates -/

namespace Build.Composed

variable {α : Type} {x : Build α}

theorem kept (hx : x.Composed) (c : Circuit) : c.Kept (x c).2 := by
  induction hx generalizing c with
  | pure a => exact .refl c
  | gate op a b => exact Circuit.kept_gate op a b c
  | bind _ _ ihx ihf => exact (ihx c).trans (ihf _ _)

/-- Where gates are shared, a computation that was performed does nothing the next time. -/
theorem again (hx : x.Composed) {c d : Circuit} (hsharing : c.options.gateSharing = true)
    (h : (x c).2.Kept d) : x d = ((x c).1, d) := by
  induction hx generalizing c with
  | pure a => rfl
  | gate op a b => exact Circuit.gate_again hsharing h
  | @bind α β x f first rest ihx ihf =>
    have hmid : (x c).2.Kept d := ((rest (x c).1).kept (x c).2).trans h
    have hfirst : x d = ((x c).1, d) := ihx hsharing hmid
    have hsharing' : (x c).2.options.gateSharing = true := by
      rw [(first.kept c).options_eq, hsharing]
    have hbind : (x >>= f) d = f (x d).1 (x d).2 := rfl
    rw [hbind, hfirst]
    exact ihf (x c).1 hsharing' h

end Build.Composed

theorem Operation.kept_build (operation : Operation Literal) (c : Circuit) :
    c.Kept (operation.build c).2 := by
  cases operation with
  | newVariable => exact Circuit.kept_fresh c
  | binary gate a b =>
    cases gate with
    | and => exact (Circuit.composed_and a b).kept c
    | or => exact (Circuit.composed_or a b).kept c
    | xor => exact (Circuit.composed_xor a b).kept c
    | implies => exact (Circuit.composed_implies a b).kept c
    | iff => exact (Circuit.composed_iff a b).kept c
  | select condition a b => exact (Circuit.composed_select condition a b).kept c
  | andAll ls => exact (Circuit.composed_andAll ls).kept c
  | orAll ls => exact (Circuit.composed_orAll ls).kept c
  | require a => exact Circuit.kept_require a c
  | requireEqual a b =>
    exact ((Circuit.composed_iff a b).kept c).trans (Circuit.kept_require _ _)

/-! ## States -/

/-- A later state has the shared gates of an earlier one, and the same literals of the same
names. -/
structure Lowering.Kept (s t : Lowering) : Prop where
  circuit : s.circuit.Kept t.circuit
  bound : ∀ (key : NamedBit) (l : Literal), s.bound[key]? = some l → t.bound[key]? = some l

namespace Lowering.Kept

variable {s t u : Lowering}

theorem refl (s : Lowering) : s.Kept s := ⟨.refl _, fun _ _ h => h⟩

theorem trans (h : s.Kept t) (h' : t.Kept u) : s.Kept u :=
  ⟨h.circuit.trans h'.circuit, fun key l hl => h'.bound key l (h.bound key l hl)⟩

/-- A name's first literal takes no other literal away. -/
theorem bind {key : NamedBit} (hkey : s.bound[key]? = none) (l : Literal) :
    s.Kept { s with bound := s.bound.insert key l } := by
  refine ⟨.refl _, fun other k hk => ?_⟩
  rw [Std.TreeMap.getElem?_insert, if_neg, hk]
  intro heq
  rw [← Std.LawfulEqCmp.eq_of_compare heq, hkey] at hk
  cases hk

end Lowering.Kept

namespace Lower

variable {α β : Type} {symbols : Symbols} {s t : Lowering}

/-- From every state, a computation leads to one that has kept everything. -/
def Keeps (x : Lower α) : Prop := ∀ s : Lowering, s.Kept (x.run s).2

theorem keeps_pure (a : α) : Keeps (pure a : Lower α) := fun s => .refl s

theorem keeps_throw (fault : Fault) : Keeps (throw fault : Lower α) := fun s => .refl s

theorem keeps_build {x : Build α} (hx : ∀ c : Circuit, c.Kept (x c).2) : Keeps (build x) :=
  fun s => ⟨hx s.circuit, fun _ _ h => h⟩

/-- What a computation kept is kept by those that go on from there. -/
theorem kept_bind {x : Lower α} {f : α → Lower β} (hx : s.Kept (x.run s).2)
    (hf : ∀ a, Keeps (f a)) : s.Kept ((x >>= f).run s).2 := by
  rcases run_bind_state x f s with hstop | ⟨a, hrest⟩
  · rw [hstop]
    exact hx
  · rw [hrest]
    exact hx.trans (hf a _)

theorem Keeps.bind {x : Lower α} {f : α → Lower β} (hx : Keeps x) (hf : ∀ a, Keeps (f a)) :
    Keeps (x >>= f) := fun s => kept_bind (hx s) hf

/-! ## Questions -/

theorem keeps_demand (name : String) (bit : Nat) : Keeps (demand name bit) := by
  intro s
  rw [run_demand]
  rcases hkey : s.bound[(⟨name, bit⟩ : NamedBit)]? with _ | l
  · -- the first question makes a literal, then lets it stand for the bit
    let made : Lowering := { s with circuit := (Circuit.fresh s.circuit).2 }
    have hmade : s.Kept made := ⟨Circuit.kept_fresh s.circuit, fun _ _ h => h⟩
    have hbound : made.Kept { made with
        bound := made.bound.insert ⟨name, bit⟩ (Circuit.fresh s.circuit).1 } :=
      .bind (s := made) hkey _
    exact hmade.trans hbound
  · exact .refl s

theorem keeps_ask (r : Resolver) (name : String) (bit t : Nat) : Keeps (ask r name bit t) := by
  intro s
  unfold ask
  rw [run_bind]
  cases r.resolve name bit t <;> exact ⟨.refl _, fun _ _ h => h⟩

theorem keeps_bit (phase : Phase) (frame : Frame) (name : String) (i : Nat) :
    Keeps (symbols.bit phase frame name i) := by
  cases symbols with
  | mapped r => cases phase <;> exact keeps_ask r name i _
  | onDemand => cases phase <;> exact keeps_demand _ i

/-- A question that was answered is answered alike from then on, and adds nothing. -/
theorem bit_again {phase : Phase} {frame : Frame} {name : String} {i : Nat} {l : Literal}
    {s' : Lowering} (hrun : (symbols.bit phase frame name i).run s = (.ok l, s'))
    (h : s'.Kept t) : ∃ t', (symbols.bit phase frame name i).run t = (.ok l, t') ∧
      t'.circuit = t.circuit ∧ t'.bound = t.bound := by
  have hask : ∀ r time, (ask r name i time).run s = (.ok l, s') →
      ∃ t', (ask r name i time).run t = (.ok l, t') ∧
        t'.circuit = t.circuit ∧ t'.bound = t.bound := by
    intro r time hrun
    unfold ask at hrun ⊢
    rw [run_bind] at hrun ⊢
    cases hr : r.resolve name i time <;> rw [hr] at hrun
    · cases hrun
    · cases hrun
      exact ⟨_, rfl, rfl, rfl⟩
  have hdemand : ∀ other, (demand other i).run s = (.ok l, s') →
      ∃ t', (demand other i).run t = (.ok l, t') ∧
        t'.circuit = t.circuit ∧ t'.bound = t.bound := by
    intro other hrun
    refine ⟨t, ?_, rfl, rfl⟩
    rw [run_demand, h.bound _ l (getElem?_of_demand hrun)]
  cases symbols with
  | mapped r => cases phase <;> exact hask r _ hrun
  | onDemand => cases phase <;> exact hdemand _ hrun

/-! ## Computations made of gates and questions -/

theorem Composed.keeps {x : Lower α} (hx : Composed symbols x) : Keeps x := by
  induction hx with
  | pure a => exact keeps_pure a
  | stop fault => exact keeps_throw fault
  | build gates => exact keeps_build gates.kept
  | bit phase frame name i => exact keeps_bit phase frame name i
  | bind _ _ ihx ihf => exact ihx.bind ihf

/-- Where gates are shared, a computation that had a result has it again in every later state, and
adds nothing. -/
theorem Composed.again {x : Lower α} (hx : Composed symbols x) {a : α} {s' : Lowering}
    (hsharing : s.circuit.options.gateSharing = true) (hrun : x.run s = (.ok a, s'))
    (h : s'.Kept t) :
    ∃ t', x.run t = (.ok a, t') ∧ t'.circuit = t.circuit ∧ t'.bound = t.bound := by
  induction hx generalizing s t s' with
  | pure b =>
    cases hrun
    exact ⟨t, rfl, rfl, rfl⟩
  | stop fault => cases hrun
  | @build α x gates =>
    cases hrun
    have hagain : x t.circuit = ((x s.circuit).1, t.circuit) := gates.again hsharing h.circuit
    have hbuild : (Lower.build x).run t = (Except.ok (x t.circuit).1,
      { t with circuit := (x t.circuit).2 }) := rfl
    rw [hbuild, hagain]
    exact ⟨_, rfl, rfl, rfl⟩
  | bit phase frame name i => exact bit_again hrun h
  | @bind α β x f first rest ihx ihf =>
    obtain ⟨b, s₁, hfirst, hrest⟩ := run_bind_ok hrun
    have hkept := first.keeps s
    have hkept' := (rest b).keeps s₁
    rw [hfirst] at hkept
    rw [hrest] at hkept'
    have hsharing' : s₁.circuit.options.gateSharing = true := by
      rw [hkept.circuit.options_eq, hsharing]
    obtain ⟨t₁, hrun₁, hcircuit₁, hbound₁⟩ := ihx hsharing hfirst (hkept'.trans h)
    have h₁ : s'.Kept t₁ := ⟨hcircuit₁ ▸ h.circuit, hbound₁ ▸ h.bound⟩
    obtain ⟨t₂, hrun₂, hcircuit₂, hbound₂⟩ := ihf b hsharing' hrest h₁
    refine ⟨t₂, ?_, hcircuit₂.trans hcircuit₁, hbound₂.trans hbound₁⟩
    rw [run_bind, hrun₁]
    exact hrun₂

end Lower

/-! ## Requirements -/

namespace Expr

open Lower (Keeps keeps_pure keeps_throw keeps_build)

variable {types : TypeTable} {name : String} {frame : Frame} {lhs rhs : Expr}

theorem keeps_toLiteral (s : Setting) (e : Expr) (frame : Frame) : Keeps (e.toLiteral s frame) :=
  ((e.composed s).truth frame).keeps

theorem keeps_toWord (s : Setting) (e : Expr) (frame : Frame) : Keeps (e.toWord s frame) :=
  ((e.composed s).word frame).keeps

theorem keeps_requireTruth (s : Setting) (e : Expr) (frame : Frame) :
    Keeps (e.requireTruth s frame) :=
  (keeps_toLiteral s e frame).bind fun l => keeps_build (Circuit.kept_require l)

theorem keeps_requireEqualBits (a b : Word) : Keeps (requireEqualBits a b) := by
  induction a generalizing b with
  | nil => exact keeps_pure ()
  | cons x a ih =>
    cases b with
    | nil => exact keeps_pure ()
    | cons y b =>
      exact (keeps_build (Operation.requireEqual x y).kept_build).bind fun _ => ih b

/-- The bits of a word may be handed out to a name whose bits in these places have no literals. -/
theorem kept_bindFrom (name : String) (i : Nat) (w : Word) {s : Lowering}
    (hfree : ∀ j, i ≤ j → j < i + w.length → s.bound[(⟨name, j⟩ : NamedBit)]? = none) :
    s.Kept ((bindFrom name i w).run s).2 := by
  induction w generalizing i s with
  | nil => exact .refl s
  | cons l w ih =>
    refine (Lowering.Kept.bind (hfree i (Nat.le_refl i) (by simp)) l).trans
      (ih (i + 1) fun j hle hlt => ?_)
    rw [Std.TreeMap.getElem?_insert, if_neg (by simp; omega)]
    exact hfree j (by omega) (by rw [List.length_cons]; omega)

/-- What goes on after a look at a name's bits may rely on it that they have no literals. -/
theorem Keeps.anyBound {α : Type} {width : Nat} {f : Bool → Lower α} (htrue : Keeps (f true))
    (hfalse : ∀ s : Lowering, (∀ i < width, s.bound[(⟨name, i⟩ : NamedBit)]? = none) →
      s.Kept ((f false).run s).2) : Keeps (anyBound name width >>= f) := by
  intro s
  have hrun : (Expr.anyBound name width).run s = (.ok ((List.range width).any fun i =>
    (s.bound[(⟨name, i⟩ : NamedBit)]?).isSome), s) := rfl
  rw [run_bind, hrun]
  dsimp only
  cases hany : (List.range width).any fun i => (s.bound[(⟨name, i⟩ : NamedBit)]?).isSome with
  | true => exact htrue s
  | false =>
    refine hfalse s fun i hi => ?_
    simpa using List.any_eq_false.1 hany i (List.mem_range.2 hi)

theorem keeps_bindWord (lhs rhs : Expr) (frame : Frame) :
    Keeps (bindWord types name lhs rhs frame) := by
  unfold bindWord
  refine (keeps_toWord _ rhs frame).bind fun w => ?_
  have hwidth (m n : Nat) : Keeps (Lower.sameWidth m n) :=
    (@Lower.composed_sameWidth .onDemand m n).keeps
  have hclauses : Keeps (do
      let own ← lhs.toWord ⟨types, .onDemand⟩ frame
      Lower.sameWidth own.length w.length
      requireEqualBits own w
      return true) :=
    (keeps_toWord _ lhs frame).bind fun own =>
      (hwidth own.length w.length).bind fun _ =>
        (keeps_requireEqualBits own w).bind fun _ => keeps_pure true
  refine Keeps.anyBound ?_ fun s hfree => ?_
  · rw [Bool.or_true, if_pos rfl]
    exact hclauses
  · rw [Bool.or_false]
    split
    · exact hclauses s
    · rename_i hlength
      have hlength : w.length = types.width lhs.ty := by simpa using hlength
      refine Lower.kept_bind ?_ fun _ => keeps_pure true
      exact kept_bindFrom name 0 w fun j _ hj => hfree j (by omega)

/-- Handing out the bits of an expression to a variable takes no literal away. -/
theorem keeps_bindSymbol (lhs rhs : Expr) (frame : Frame) :
    Keeps (bindSymbol ⟨types, .onDemand⟩ lhs rhs frame) := by
  unfold bindSymbol
  split
  · dsimp only
    split
    · exact keeps_pure false
    · refine Keeps.anyBound (keeps_pure false) fun s _ => ?_
      exact keeps_bindWord lhs rhs frame s
  · exact keeps_pure false

theorem keeps_requireEquality (s : Setting) (e : Expr) (frame : Frame) :
    Keeps (requireEquality s e frame) := by
  obtain ⟨types, symbols⟩ := s
  unfold requireEquality
  split
  · exact keeps_pure false
  · rename_i hsymbols _
    obtain rfl : symbols = .onDemand := hsymbols
    exact keeps_bindSymbol _ _ frame
  · exact keeps_throw _

theorem keeps_require (s : Setting) (e : Expr) (frame : Frame) : Keeps (e.require s frame) := by
  induction e using require_induction with
  | conjunction ty es ih =>
    show Keeps (requireAll s es frame)
    induction es with
    | nil => exact keeps_pure ()
    | cons e es ihs =>
      obtain ⟨he, hes⟩ := List.forall_mem_cons.1 ih
      exact he.bind fun _ => ihs hes
  | equality ty lhs rhs =>
    refine (keeps_requireEquality s _ frame).bind fun bound => ?_
    cases bound with
    | true => exact keeps_pure ()
    | false => exact keeps_requireTruth s _ frame
  | other e htruth =>
    rw [htruth]
    exact keeps_requireTruth s e frame

end Expr

/-! ## What may happen in between -/

namespace Lowering

/-- What can be done on one circuit: an operation on any literals, lowering an expression, requiring
it or trying to bind an equality, with any types, symbols and frame and with any outcome, and all of
this with other names. -/
inductive Step : Lowering → Lowering → Prop
  | operation (operation : Operation Literal) (s : Lowering) :
      Step s { s with circuit := (operation.build s.circuit).2 }
  | literal (setting : Setting) (e : Expr) (frame : Frame) (s : Lowering) :
      Step s ((e.toLiteral setting frame).run s).2
  | word (setting : Setting) (e : Expr) (frame : Frame) (s : Lowering) :
      Step s ((e.toWord setting frame).run s).2
  | required (setting : Setting) (e : Expr) (frame : Frame) (s : Lowering) :
      Step s ((e.require setting frame).run s).2
  | equality (setting : Setting) (e : Expr) (frame : Frame) (s : Lowering) :
      Step s ((e.requireEquality setting frame).run s).2
  | elsewhere {s t : Lowering} (bound : Std.TreeMap NamedBit Literal NamedBit.order)
      (there : Step { s with bound := bound } t) : Step s { t with bound := s.bound }

/-- A state that steps lead to. -/
def Later : Lowering → Lowering → Prop := Relation.ReflTransGen Step

theorem Step.kept {s t : Lowering} (h : s.Step t) : s.Kept t := by
  induction h with
  | operation operation s => exact ⟨operation.kept_build s.circuit, fun _ _ h => h⟩
  | literal setting e frame s => exact e.keeps_toLiteral setting frame s
  | word setting e frame s => exact e.keeps_toWord setting frame s
  | required setting e frame s => exact e.keeps_require setting frame s
  | equality setting e frame s => exact e.keeps_requireEquality setting frame s
  | elsewhere bound there ih => exact ⟨ih.circuit, fun _ _ h => h⟩

theorem Later.kept {s t : Lowering} (h : s.Later t) : s.Kept t := by
  induction h with
  | refl => exact .refl s
  | tail _ step ih => exact ih.trans step.kept

end Lowering

namespace Expr

/-- **Lowering is idempotent where gates are shared.** If an expression was lowered to a literal or
to a word on a circuit that shares gates, whether it folds constants or not, then after any further
conversions, assertions and operations it is lowered to the same literal or word, with a resolver as
well as without one, and the circuit and the names' literals stay as they are. -/
theorem lowered_again {s : Setting} {e : Expr} {frame : Frame} {start done later : Lowering}
    (hsharing : start.circuit.options.gateSharing = true) (hlater : done.Later later) :
    (∀ l, (e.toLiteral s frame).run start = (.ok l, done) →
      ∃ again, (e.toLiteral s frame).run later = (.ok l, again) ∧
        again.circuit = later.circuit ∧ again.bound = later.bound) ∧
    ∀ w, (e.toWord s frame).run start = (.ok w, done) →
      ∃ again, (e.toWord s frame).run later = (.ok w, again) ∧
        again.circuit = later.circuit ∧ again.bound = later.bound :=
  ⟨fun _ hrun => ((e.composed s).truth frame).again hsharing hrun hlater.kept,
    fun _ hrun => ((e.composed s).word frame).again hsharing hrun hlater.kept⟩

/-- The conjunction of a variable and its next value, lowered again after another variable was
bound to it and a variable was added. -/
theorem lowered_again_after_binding :
    let s : Setting := ⟨.empty, .onDemand⟩
    let e : Expr := .conjunction [.symbol "x" .bool, .nextSymbol "x" .bool]
    let equality : Expr := .node (.equality false) .bool [.symbol "y" .bool, e]
    let done : Lowering := ((e.toLiteral s .phases).run { circuit := .initial {} }).2
    let bound : Lowering := ((equality.require s .phases).run done).2
    let later : Lowering :=
      { bound with circuit := (Operation.newVariable.build bound.circuit).2 }
    ∃ again : Lowering,
      (e.toLiteral s .phases).run { circuit := .initial {} } = (.ok ⟨3, true⟩, done) ∧
      done.Later later ∧
      later.bound[(⟨"y", 0⟩ : NamedBit)]? = some ⟨3, true⟩ ∧
      later.circuit.formula.numVars = done.circuit.formula.numVars + 1 ∧
      (e.toLiteral s .phases).run later = (.ok ⟨3, true⟩, again) ∧
      again.circuit = later.circuit ∧ again.bound = later.bound := by
  intro s e equality done bound later
  have hdone : (e.toLiteral s .phases).run { circuit := .initial {} } = (.ok ⟨3, true⟩, done) :=
    Prod.ext (by decide +kernel) rfl
  have hbound : done.Step bound := .required s equality .phases done
  have hlater : bound.Step later := .operation .newVariable bound
  have hsteps : done.Later later := (Relation.ReflTransGen.single hbound).tail hlater
  obtain ⟨again, hagain, hkept⟩ := (lowered_again rfl hsteps).1 ⟨3, true⟩ hdone
  exact ⟨again, hdone, hsteps, by decide +kernel, by decide +kernel, hagain, hkept⟩

end Expr

end BitUnroll
