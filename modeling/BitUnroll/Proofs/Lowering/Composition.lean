import BitUnroll.Proofs.Lowering.Expressions
import BitUnroll.Proofs.Word.Composition

/-!
# What lowered expressions are made of

Lowering an expression is a sequence of gates and of questions for single bits of variables, and it
may stop. Whatever the expression, nothing else is done to the state: no literal is required, and no
name gets a literal but by a question for one of its bits. So what gates and questions keep is kept
by lowering, and there is one induction over expressions for all such facts.

## Main definitions

* `Lower.Composed`: lowering computations that are made of gates and questions.
* `Operand.Composed`: both ways of lowering an operand are.

## Main statements

* `Expr.composed`: lowering an expression.
-/

namespace BitUnroll

/-- Lowering computations that are made of gates and of questions for bits of variables. -/
inductive Lower.Composed (symbols : Symbols) : {α : Type} → Lower α → Prop
  | pure {α : Type} (a : α) : Composed symbols (Pure.pure a)
  | stop {α : Type} (fault : Fault) : Composed symbols (throw fault : Lower α)
  | build {α : Type} {x : Build α} (gates : x.Composed) : Composed symbols (Lower.build x)
  | bit (phase : Phase) (frame : Frame) (name : String) (i : Nat) :
      Composed symbols (symbols.bit phase frame name i)
  | bind {α β : Type} {x : Lower α} {f : α → Lower β} (first : Composed symbols x)
      (rest : ∀ a, Composed symbols (f a)) : Composed symbols (x >>= f)

/-- Both ways of lowering an operand are made of gates and questions. -/
structure Operand.Composed (symbols : Symbols) (a : Operand) : Prop where
  truth : ∀ frame, Lower.Composed symbols (a.truth frame)
  word : ∀ frame, Lower.Composed symbols (a.word frame)

namespace Lower

variable {symbols : Symbols} {α : Type} {ops : List Operand}

theorem composed_refuse (e : LoweringError) : Composed symbols (refuse e : Lower α) := .stop _

theorem composed_crash (c : Crash) : Composed symbols (crash c : Lower α) := .stop _

theorem composed_gated {x : Word.Gated α} (hx : x.Composed) : Composed symbols (gated x) := by
  refine (Composed.build hx).bind fun result => ?_
  cases result with
  | ok a => exact .pure a
  | error lengths => exact composed_crash _

/-! ## Checks -/

theorem composed_sameWidth (m n : Nat) : Composed symbols (sameWidth m n) := by
  unfold sameWidth
  split
  · exact .pure ()
  · exact composed_refuse _

theorem composed_oneBit (w : Word) : Composed symbols (oneBit w) := by
  unfold oneBit
  split
  · exact .pure _
  · exact composed_refuse _

theorem composed_bitOf (w : Word) (i : Nat) : Composed symbols (bitOf w i) := by
  unfold bitOf
  split
  · exact .pure _
  · exact composed_crash _

theorem composed_slice (w : Word) (upper lower : Nat) :
    Composed symbols (slice w upper lower) := by
  unfold slice
  split
  · exact .pure _
  · exact composed_crash _

theorem composed_constantIndex (e : Expr) (kind : Kind) (width : Nat) :
    Composed symbols (constantIndex e kind width) := by
  unfold constantIndex
  split
  · exact composed_refuse _
  · split
    · exact .pure _
    · exact composed_refuse _

theorem composed_shift (f : Frame) (offset : Nat) : Composed symbols (shift f offset) := by
  unfold shift
  split
  · exact .pure _
  · exact composed_refuse _

/-! ## Symbols -/

theorem composed_wordFrom (phase : Phase) (frame : Frame) (name : String) (i count : Nat) :
    Composed symbols (symbols.wordFrom phase frame name i count) := by
  induction count generalizing i with
  | zero => exact .pure []
  | succ count ih =>
    exact (Composed.bit phase frame name i).bind fun _ => (ih (i + 1)).bind fun _ => .pure _

theorem composed_word (phase : Phase) (frame : Frame) (name : String) (width : Nat) :
    Composed symbols (symbols.word phase frame name width) :=
  composed_wordFrom phase frame name 0 width

/-! ## Operands -/

theorem composed_one (kind : Kind) (hops : ∀ a ∈ ops, a.Composed symbols) {f : Operand → Lower α}
    (hf : ∀ a, a.Composed symbols → Composed symbols (f a)) :
    Composed symbols (one kind ops >>= f) := by
  rcases ops with _ | ⟨a, _ | ⟨b, ops⟩⟩
  · exact composed_refuse _
  · exact hf a (hops a (by simp))
  · exact composed_refuse _

theorem composed_two (kind : Kind) (hops : ∀ a ∈ ops, a.Composed symbols)
    {f : Operand × Operand → Lower α}
    (hf : ∀ a b, a.Composed symbols → b.Composed symbols → Composed symbols (f (a, b))) :
    Composed symbols (two kind ops >>= f) := by
  rcases ops with _ | ⟨a, _ | ⟨b, _ | ⟨c, ops⟩⟩⟩
  · exact composed_refuse _
  · exact composed_refuse _
  · exact hf a b (hops a (by simp)) (hops b (by simp))
  · exact composed_refuse _

theorem composed_three (kind : Kind) (hops : ∀ a ∈ ops, a.Composed symbols)
    {f : Operand × Operand × Operand → Lower α}
    (hf : ∀ a b c, a.Composed symbols → b.Composed symbols → c.Composed symbols →
      Composed symbols (f (a, b, c))) :
    Composed symbols (three kind ops >>= f) := by
  rcases ops with _ | ⟨a, _ | ⟨b, _ | ⟨c, _ | ⟨d, ops⟩⟩⟩⟩
  · exact composed_refuse _
  · exact composed_refuse _
  · exact composed_refuse _
  · exact hf a b c (hops a (by simp)) (hops b (by simp)) (hops c (by simp))
  · exact composed_refuse _

theorem composed_leading : Composed symbols (leading ops) := by
  cases ops with
  | nil => exact composed_crash _
  | cons a ops => exact .pure a

/-- One computation for each operand. -/
theorem composed_mapM {f : Operand → Lower α} (hf : ∀ a ∈ ops, Composed symbols (f a)) :
    Composed symbols (ops.mapM f) := by
  induction ops with
  | nil => exact .pure []
  | cons a ops ih =>
    obtain ⟨ha, hops⟩ := List.forall_mem_cons.1 hf
    rw [List.mapM_cons]
    exact ha.bind fun _ => (ih hops).bind fun _ => .pure _

theorem composed_wordPair (kind : Kind) (hops : ∀ a ∈ ops, a.Composed symbols) (frame : Frame) :
    Composed symbols (wordPair kind ops frame) :=
  composed_two kind hops fun _ _ ha hb => (ha.word frame).bind fun _ => (hb.word frame).bind
    fun _ => (composed_sameWidth _ _).bind fun _ => .pure _

/-- A gate on the truth values of two operands. -/
theorem composed_truthPair {a b : Operand} (ha : a.Composed symbols) (hb : b.Composed symbols)
    (frame : Frame) {gate : Literal → Literal → Build Literal}
    (hgate : ∀ x y, (gate x y).Composed) :
    Composed symbols (do
      let x ← a.truth frame
      let y ← b.truth frame
      build (gate x y)) :=
  (ha.truth frame).bind fun x => (hb.truth frame).bind fun y => .build (hgate x y)

/-! ## Operators on timeframes -/

theorem composed_delays {body : Operand} (hbody : body.Composed symbols) (frame : Frame)
    (offset count : Nat) : Composed symbols (delays body frame offset count) := by
  induction count generalizing offset with
  | zero => exact .pure []
  | succ count ih =>
    exact (composed_shift frame offset).bind fun g => (hbody.truth g).bind fun _ =>
      (ih (offset + 1)).bind fun _ => .pure _

theorem composed_delay (first last : Operand) {body : Operand} (hbody : body.Composed symbols)
    (frame : Frame) : Composed symbols (delay first last body frame) := by
  unfold delay
  split
  · split
    · exact composed_refuse _
    · exact (composed_shift frame _).bind hbody.truth
  · split
    · exact (composed_delays hbody frame _ _).bind fun ls => .build (Circuit.composed_orAll ls)
    · exact composed_refuse _

theorem composed_temporal (op : Temporal) (hops : ∀ a ∈ ops, a.Composed symbols)
    (frame : Frame) : Composed symbols (temporal op ops frame) := by
  unfold temporal
  split
  · exact composed_truthPair (hops _ (by simp)) (hops _ (by simp)) frame Circuit.composed_implies
  · exact composed_truthPair (hops _ (by simp)) (hops _ (by simp)) frame Circuit.composed_implies
  · exact composed_truthPair (hops _ (by simp)) (hops _ (by simp)) frame Circuit.composed_and
  · exact composed_delay _ _ (hops _ (by simp)) frame
  · exact composed_refuse _

/-! ## Operators on truth values -/

variable {types : TypeTable}

theorem composed_equality (kind : Kind) (hops : ∀ a ∈ ops, a.Composed symbols) (frame : Frame) :
    Composed symbols (equality ⟨types, symbols⟩ kind ops frame) := by
  refine composed_two kind hops fun a b ha hb => ?_
  dsimp only
  split
  · exact composed_truthPair ha hb frame Circuit.composed_iff
  · exact (composed_wordPair kind hops frame).bind fun ws =>
      composed_gated (Word.composed_equal ws.1 ws.2)

theorem composed_relation (op : Relation) (a b : Word) (signed : Bool) :
    Composed symbols (relation op a b signed) := by
  cases op with
  | lt => exact composed_gated (Word.composed_lessThan a b signed)
  | gt => exact composed_gated (Word.composed_lessThan b a signed)
  | le => exact (composed_gated (Word.composed_lessThan b a signed)).bind fun _ => .pure _
  | ge => exact (composed_gated (Word.composed_lessThan a b signed)).bind fun _ => .pure _

theorem composed_extractBit (hops : ∀ a ∈ ops, a.Composed symbols) (frame : Frame) :
    Composed symbols (extractBit ⟨types, symbols⟩ ops frame) := by
  refine composed_two _ hops fun a index ha _ => ?_
  refine (composed_constantIndex index.expr _ _).bind fun i => ?_
  split
  · exact .bit .current frame _ i
  · exact (ha.word frame).bind fun w => (composed_sameWidth _ w.length).bind fun _ =>
      composed_bitOf w i

/-- A node whose kind gives a literal by nature. -/
theorem composed_logical (kind : Kind) (hops : ∀ a ∈ ops, a.Composed symbols) (frame : Frame) :
    Composed symbols (logical ⟨types, symbols⟩ kind ops frame) := by
  cases kind with
  | truth value => exact .pure _
  | not => exact composed_one .not hops fun a ha => (ha.truth frame).bind fun _ => .pure _
  | connective op =>
    refine (composed_mapM fun a ha => (hops a ha).truth frame).bind fun ls => .build ?_
    cases op with
    | and => exact Circuit.composed_andAll ls
    | or => exact Circuit.composed_orAll ls
    | xor => exact Circuit.composed_xorAll ls
  | implies =>
    exact composed_two .implies hops fun a b ha hb =>
      composed_truthPair ha hb frame Circuit.composed_implies
  | equality negated => exact (composed_equality _ hops frame).bind fun _ => .pure _
  | ite =>
    refine composed_three .ite hops fun c a b hc ha hb => ?_
    exact (hc.truth frame).bind fun z => (ha.truth frame).bind fun x => (hb.truth frame).bind
      fun y => .build (Circuit.composed_select z x y)
  | relation op =>
    exact (composed_wordPair _ hops frame).bind fun ws => composed_leading.bind fun a =>
      composed_relation op ws.1 ws.2 _
  | extractBit => exact composed_extractBit hops frame
  | temporal op =>
    show Composed symbols (if symbols.multiStep = true then _ else _)
    split
    · exact composed_temporal op hops frame
    · exact composed_refuse _
  | symbol | nextSymbol | constant | nil | complement | negate | binary | extractBits | concat
  | cast => exact composed_refuse _

/-! ## Operators on words -/

theorem composed_wordOp (op : WordOp) (a b : Word) : (wordOp op a b).Composed := by
  cases op with
  | and => exact Word.composed_bitwise Circuit.composed_and a b
  | or => exact Word.composed_bitwise Circuit.composed_or a b
  | xor => exact Word.composed_bitwise Circuit.composed_xor a b
  | add => exact Word.composed_add a b .bottom
  | sub => exact Word.composed_sub a b
  | mul => exact Word.composed_mul a b

theorem composed_extractBits (width : Nat) (hops : ∀ a ∈ ops, a.Composed symbols)
    (frame : Frame) : Composed symbols (extractBits width ops frame) := by
  refine composed_three _ hops fun a last first ha _ _ => ?_
  refine (ha.word frame).bind fun w => ?_
  refine (composed_constantIndex last.expr _ _).bind fun upper => ?_
  refine (composed_constantIndex first.expr _ _).bind fun lower => ?_
  split
  · exact composed_refuse _
  · exact (composed_sameWidth _ _).bind fun _ => composed_slice w upper lower

/-- A node whose kind gives a word by nature, or a conditional. -/
theorem composed_wordy (kind : Kind) (ty : Ty) (es : List Expr)
    (hops : ∀ a ∈ ops, a.Composed symbols) (frame : Frame) :
    Composed symbols (wordy ⟨types, symbols⟩ (.node kind ty es) ops frame) := by
  cases kind with
  | symbol name =>
    show Composed symbols (if _ then _ else _)
    split
    · exact composed_refuse _
    · exact composed_word .current frame name _
  | nextSymbol name =>
    show Composed symbols (if _ then _ else _)
    split
    · exact composed_refuse _
    · exact composed_word .next frame name _
  | constant n =>
    show Composed symbols (if _ then _ else _)
    split
    · exact composed_refuse _
    · exact .pure _
  | complement =>
    exact composed_one .complement hops fun a ha => (ha.word frame).bind fun _ => .pure _
  | negate =>
    exact composed_one .negate hops fun a ha => (ha.word frame).bind fun w =>
      composed_gated (Word.composed_negate w)
  | binary op =>
    exact (composed_wordPair _ hops frame).bind fun ws => (composed_sameWidth _ _).bind fun _ =>
      composed_gated (composed_wordOp op ws.1 ws.2)
  | ite =>
    refine composed_three .ite hops fun c a b hc ha hb => ?_
    exact (hc.truth frame).bind fun z => (ha.word frame).bind fun x => (hb.word frame).bind
      fun y => (composed_sameWidth _ _).bind fun _ => composed_gated (Word.composed_mux z x y)
  | extractBits => exact composed_extractBits _ hops frame
  | concat =>
    refine (composed_mapM fun a ha => (hops a (List.mem_reverse.1 ha)).word frame).bind fun _ => ?_
    exact (composed_sameWidth _ _).bind fun _ => .pure _
  | cast =>
    refine composed_one .cast hops fun a ha => (ha.word frame).bind fun w => ?_
    show Composed symbols (if _ then _ else _)
    split
    · exact composed_refuse _
    · exact .pure _
  | truth | nil | not | connective | implies | equality | relation | extractBit | temporal =>
    exact composed_refuse _

/-! ## Nodes -/

theorem composed_ofWord (kind : Kind) (ty : Ty) (es : List Expr)
    (hops : ∀ a ∈ ops, a.Composed symbols) (frame : Frame) :
    Composed symbols (truthOf.ofWord ⟨types, symbols⟩ (.node kind ty es) ops frame) := by
  unfold truthOf.ofWord
  split
  · exact (composed_wordy kind ty es hops frame).bind composed_oneBit
  · exact composed_refuse _

theorem composed_truthOf (kind : Kind) (ty : Ty) (es : List Expr)
    (hops : ∀ a ∈ ops, a.Composed symbols) (frame : Frame) :
    Composed symbols (truthOf ⟨types, symbols⟩ (.node kind ty es) ops frame) := by
  unfold truthOf
  split
  · split
    · exact .pure _
    · exact composed_ofWord kind ty es hops frame
  · split
    · exact composed_ofWord kind ty es hops frame
    · exact composed_logical _ hops frame

theorem composed_wordOf (kind : Kind) (ty : Ty) (es : List Expr)
    (hops : ∀ a ∈ ops, a.Composed symbols) (frame : Frame) :
    Composed symbols (wordOf ⟨types, symbols⟩ (.node kind ty es) ops frame) := by
  unfold wordOf
  split
  · exact composed_wordy kind ty es hops frame
  · split
    · exact (composed_logical _ hops frame).bind fun _ => .pure _
    · exact composed_refuse _

end Lower

/-- Lowering an expression is made of gates and questions. -/
theorem Expr.composed (s : Setting) (e : Expr) : (e.lower s).Composed s.symbols := by
  induction e using Expr.induction with
  | node kind ty es ih =>
    have hops : ∀ a ∈ lowerAll s es, a.Composed s.symbols := by
      rw [lowerAll_eq_map]
      exact List.forall_mem_map.2 ih
    exact ⟨Lower.composed_truthOf kind ty es hops, Lower.composed_wordOf kind ty es hops⟩

end BitUnroll
