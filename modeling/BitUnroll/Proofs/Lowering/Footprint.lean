import BitUnroll.Proofs.Lowering.Questions
import BitUnroll.Proofs.Lowering.Requirements

/-!
# Footprints of expressions

The footprint of an expression is the set of questions that lowering it in a frame asks. It is read
off the expression: the bits of the variables that it mentions, in the timeframes that delays take
them to, except that of a variable one of whose bits is extracted only that bit is asked for.
Lowering asks for nothing else, and where it succeeds it has asked for all of it and the
expression's delays and indices were numbers in range.

## Main definitions

* `Footprint`: an expression with its questions in any frame.
* `Expr.footprint`: the footprint of an expression.
* `Expr.bindWord`: how a variable without literals gets those of an expression.

## Main statements

* `Expr.traced`: lowering an expression asks the questions of its footprint.
* `Expr.looks_require`: so does requiring it.
-/

namespace BitUnroll

/-- An expression with the questions that lowering it asks in any frame, and what is known of the
frame where lowering succeeds. -/
structure Footprint where
  expr : Expr
  asks : Frame → Set Read
  settled : Frame → Prop

/-- The offsets of a delay, none if a bound is no number of timeframes. -/
def Expr.offsets (first last : Expr) : List Nat :=
  if last.isNil then first.delayOffset?.toList
  else
    match first.delayOffset?, last.delayOffset? with
    | some a, some b => List.range' a (b - a)
    | _, _ => []

namespace Footprint

/-- The number that a constant stands for, zero for anything else. -/
def index (m : Footprint) : Nat := (m.expr.toInteger?.getD 0).toNat

/-- The questions of a delay: those of its body, in each frame that an offset leads to. -/
def delayAsks (first last body : Footprint) (f : Frame) : Set Read :=
  {n | ∃ k ∈ first.expr.offsets last.expr, ∃ g, f.shift k = .ok g ∧ n ∈ body.asks g}

/-- The bounds of a delay are numbers of timeframes, and each offset leads to a frame. -/
def delaySettled (first last body : Footprint) (f : Frame) : Prop :=
  first.expr.delayOffset?.isSome ∧ (last.expr.isNil ∨ last.expr.delayOffset?.isSome) ∧
    ∀ k ∈ first.expr.offsets last.expr, ∃ g, f.shift k = .ok g ∧ body.settled g

/-- The questions of the bit that is extracted from a word. -/
def bitAsks (s : Setting) (a i : Footprint) (f : Frame) : Set Read :=
  match a.expr.kind with
  | .symbol name =>
    {n | i.index < s.types.width a.expr.ty ∧ n = s.symbols.note .current f name i.index}
  | _ => a.asks f

theorem bitAsks_of_symbol (s : Setting) {a : Footprint} {name : String}
    (h : a.expr.kind = .symbol name) (i : Footprint) (f : Frame) : bitAsks s a i f =
      {n | i.index < s.types.width a.expr.ty ∧ n = s.symbols.note .current f name i.index} := by
  unfold bitAsks
  rw [h]

theorem bitAsks_of_ne (s : Setting) {a : Footprint} (h : ∀ name, a.expr.kind ≠ .symbol name)
    (i : Footprint) (f : Frame) : bitAsks s a i f = a.asks f := by
  unfold bitAsks
  split
  · exact absurd ‹_› (h _)
  · rfl

/-- The questions of a node. -/
def nodeAsks (s : Setting) (kind : Kind) (ty : Ty) (ops : List Footprint) (f : Frame) : Set Read :=
  match kind, ops with
  | .symbol name, _ => s.symbols.notes .current f name 0 (s.types.width ty)
  | .nextSymbol name, _ => s.symbols.notes .next f name 0 (s.types.width ty)
  | .constant _, _ | .truth _, _ => ∅
  | .extractBit, [a, i] => bitAsks s a i f
  | .extractBits, [a, _, _] => a.asks f
  | .temporal .delay, [first, last, body] => delayAsks first last body f
  | _, ops => {n | ∃ a ∈ ops, n ∈ a.asks f}

/-- What is known of a node that was lowered: variables have bits, indices are numbers in range, and
so on for its operands. -/
def nodeSettled (s : Setting) (kind : Kind) (ty : Ty) (ops : List Footprint) (f : Frame) : Prop :=
  match kind, ops with
  | .symbol _, _ | .nextSymbol _, _ => 0 < s.types.width ty
  | .constant _, _ | .truth _, _ => True
  | .extractBit, [a, i] =>
    i.expr.toInteger?.isSome ∧ i.index < s.types.width a.expr.ty ∧ a.settled f
  | .extractBits, [a, last, first] =>
    last.expr.toInteger?.isSome ∧ first.expr.toInteger?.isSome ∧ a.settled f
  | .temporal .delay, [first, last, body] => delaySettled first last body f
  | _, ops => ∀ a ∈ ops, a.settled f

end Footprint

namespace Expr

mutual

/-- The footprint of an expression. -/
def footprint (s : Setting) : Expr → Footprint
  | .node kind ty es =>
    let ops := footprints s es
    ⟨.node kind ty es, Footprint.nodeAsks s kind ty ops, Footprint.nodeSettled s kind ty ops⟩

/-- The footprints of expressions. -/
def footprints (s : Setting) : List Expr → List Footprint
  | [] => []
  | e :: es => footprint s e :: footprints s es

end

theorem footprints_eq_map (s : Setting) (es : List Expr) :
    footprints s es = es.map (footprint s) := by
  induction es with
  | nil => rfl
  | cons e es ih => rw [footprints, ih, List.map_cons]

@[simp] theorem expr_footprint (s : Setting) (e : Expr) : (e.footprint s).expr = e := by
  cases e
  rfl

/-- A variable is settled if it has bits. -/
theorem settled_of_symbol {s : Setting} {e : Expr} {name : String} (he : e.kind = .symbol name)
    (h : 0 < s.types.width e.ty) (frame : Frame) : (e.footprint s).settled frame := by
  obtain ⟨kind, ty, es⟩ := e
  obtain rfl : kind = .symbol name := he
  exact h

/-- Lowering an expression asks the questions of its footprint. -/
structure Traced (s : Setting) (e : Expr) : Prop where
  truth : ∀ frame, Lower.Looks s.symbols (e.toLiteral s frame) ((e.footprint s).asks frame)
    fun _ => (e.footprint s).settled frame
  word : ∀ frame, Lower.Looks s.symbols (e.toWord s frame) ((e.footprint s).asks frame)
    fun _ => (e.footprint s).settled frame

end Expr

namespace Lower

variable {s : Setting} {es : List Expr} {α : Type} {asks : Set Read} {post : α → Prop}

/-! ## Operands -/

theorem looks_one (kind : Kind) (f : Expr → Operand) :
    Looks s.symbols (one kind (es.map f)) ∅ fun a => ∃ e, es = [e] ∧ a = f e := by
  rcases es with _ | ⟨a, _ | ⟨b, es⟩⟩
  · exact looks_refuse _
  · exact .pure ⟨a, rfl, rfl⟩
  · exact looks_refuse _

theorem looks_two (kind : Kind) (f : Expr → Operand) :
    Looks s.symbols (two kind (es.map f)) ∅ fun p => ∃ a b, es = [a, b] ∧ p = (f a, f b) := by
  rcases es with _ | ⟨a, _ | ⟨b, _ | ⟨c, es⟩⟩⟩
  · exact looks_refuse _
  · exact looks_refuse _
  · exact .pure ⟨a, b, rfl, rfl⟩
  · exact looks_refuse _

theorem looks_three (kind : Kind) (f : Expr → Operand) :
    Looks s.symbols (three kind (es.map f)) ∅ fun p =>
      ∃ a b c, es = [a, b, c] ∧ p = (f a, f b, f c) := by
  rcases es with _ | ⟨a, _ | ⟨b, _ | ⟨c, _ | ⟨d, es⟩⟩⟩⟩
  · exact looks_refuse _
  · exact looks_refuse _
  · exact looks_refuse _
  · exact .pure ⟨a, b, c, rfl, rfl⟩
  · exact looks_refuse _

/-- The questions of some expressions. -/
def allAsks (s : Setting) (es : List Expr) (frame : Frame) : Set Read :=
  {n | ∃ a ∈ es.map (Expr.footprint s), n ∈ a.asks frame}

/-- What is known of some expressions that were lowered. -/
def AllSettled (s : Setting) (es : List Expr) (frame : Frame) : Prop :=
  ∀ a ∈ es.map (Expr.footprint s), a.settled frame

@[simp] theorem allAsks_nil (frame : Frame) : allAsks s [] frame = ∅ := by simp [allAsks]

@[simp] theorem allAsks_cons (e : Expr) (frame : Frame) : allAsks s (e :: es) frame =
    (e.footprint s).asks frame ∪ allAsks s es frame := by
  ext n
  simp [allAsks]

@[simp] theorem allSettled_nil (frame : Frame) : AllSettled s [] frame := by simp [AllSettled]

@[simp] theorem allSettled_cons (e : Expr) (frame : Frame) : AllSettled s (e :: es) frame ↔
    (e.footprint s).settled frame ∧ AllSettled s es frame := by
  simp [AllSettled]

/-- Lowering all operands in the same way, from the left. -/
theorem looks_mapM {f : Operand → Lower α} (frame : Frame)
    (hf : ∀ e ∈ es, Looks s.symbols (f (e.lower s)) ((e.footprint s).asks frame)
      fun _ => (e.footprint s).settled frame) :
    Looks s.symbols ((es.map (Expr.lower s)).mapM f) (allAsks s es frame)
      fun _ => AllSettled s es frame := by
  induction es with
  | nil =>
    rw [allAsks_nil]
    exact .pure (allSettled_nil frame)
  | cons e es ih =>
    obtain ⟨he, hes⟩ := List.forall_mem_cons.1 hf
    rw [List.map_cons, List.mapM_cons, allAsks_cons]
    exact he.bind fun l hl => (ih hes).finally fun ls hls =>
      .pure ((allSettled_cons e frame).2 ⟨hl, hls⟩)

/-- The words of two operands of one width. -/
theorem looks_wordPair (hes : ∀ e ∈ es, e.Traced s) (kind : Kind) (frame : Frame) :
    Looks s.symbols (wordPair kind (es.map (Expr.lower s)) frame) (allAsks s es frame) fun p =>
      es ≠ [] ∧ p.1.length = p.2.length ∧ AllSettled s es frame := by
  refine (looks_two kind _).then fun p ⟨a, b, hab, hp⟩ => ?_
  subst hab hp
  obtain ⟨ha, hes⟩ := List.forall_mem_cons.1 hes
  obtain ⟨hb, -⟩ := List.forall_mem_cons.1 hes
  rw [allAsks_cons, allAsks_cons, allAsks_nil, Set.union_empty]
  refine (ha.word frame).bind fun x hx => (hb.word frame).finally fun y hy => ?_
  exact (looks_sameWidth _ _).then fun _ hlen =>
    .pure ⟨List.cons_ne_nil _ _, hlen, by simp [hx, hy]⟩

theorem looks_leading (h : es ≠ []) :
    Looks s.symbols (leading (es.map (Expr.lower s))) ∅ fun _ => True := by
  cases es with
  | nil => exact absurd rfl h
  | cons e es => exact .pure trivial

/-- A gate on the truth values of two operands. -/
theorem looks_truthPair {a b : Expr} (ha : a.Traced s) (hb : b.Traced s) (frame : Frame)
    (f : Literal → Literal → Build Literal) :
    Looks s.symbols (do
        let x ← a.toLiteral s frame
        let y ← b.toLiteral s frame
        build (f x y)) (allAsks s [a, b] frame) fun _ => AllSettled s [a, b] frame := by
  rw [allAsks_cons, allAsks_cons, allAsks_nil, Set.union_empty]
  exact (ha.truth frame).bind fun x hx => (hb.truth frame).finally fun y hy =>
    (looks_build _).imp fun _ _ => by simp [hx, hy]

/-! ## Operators on timeframes -/

theorem looks_delays {body : Expr} (hbody : body.Traced s) (frame : Frame) (offset count : Nat) :
    Looks s.symbols (delays (body.lower s) frame offset count)
      {n | ∃ k ∈ List.range' offset count, ∃ g, frame.shift k = .ok g ∧
        n ∈ (body.footprint s).asks g}
      fun _ => ∀ k ∈ List.range' offset count, ∃ g, frame.shift k = .ok g ∧
        (body.footprint s).settled g := by
  induction count generalizing offset with
  | zero => exact (Looks.pure (by simp)).congr (by simp)
  | succ count ih =>
    refine (looks_shift frame offset).then fun g hg => ?_
    refine Looks.congr ((hbody.truth g).bind fun l hl => (ih (offset + 1)).finally fun ls hls =>
      .pure ?_) ?_
    · rw [List.range'_succ, List.forall_mem_cons]
      exact ⟨⟨g, hg, hl⟩, hls⟩
    · ext n
      simp [List.range'_succ, hg]

theorem looks_delay (first last : Expr) {body : Expr} (hbody : body.Traced s) (frame : Frame) :
    Looks s.symbols (delay (first.lower s) (last.lower s) (body.lower s) frame)
      (Footprint.delayAsks (first.footprint s) (last.footprint s) (body.footprint s) frame)
      fun _ => Footprint.delaySettled (first.footprint s) (last.footprint s) (body.footprint s)
        frame := by
  unfold delay Footprint.delayAsks Footprint.delaySettled Expr.offsets
  simp only [Expr.expr_lower, Expr.expr_footprint]
  by_cases hnil : last.isNil = true
  · simp only [hnil, if_true]
    cases hfirst : first.delayOffset? with
    | none => exact looks_refuse _
    | some k =>
      refine (looks_shift frame k).then fun g hg => ?_
      refine Looks.congr ((hbody.truth g).imp fun l hl => ?_) ?_
      · simp [hg, hl]
      · ext n
        simp [hg]
  · simp only [hnil]
    cases hfirst : first.delayOffset? with
    | none => exact looks_refuse _
    | some a =>
      cases hlast : last.delayOffset? with
      | none => exact looks_refuse _
      | some b =>
        refine (looks_delays hbody frame a (b - a)).finally fun ls hls => ?_
        exact (looks_build _).imp fun _ _ => ⟨rfl, .inr rfl, hls⟩

theorem looks_temporal (hes : ∀ e ∈ es, e.Traced s) (op : Temporal) (ty : Ty) (frame : Frame) :
    Looks s.symbols (temporal op (es.map (Expr.lower s)) frame)
      (Footprint.nodeAsks s (.temporal op) ty (es.map (Expr.footprint s)) frame)
      fun _ => Footprint.nodeSettled s (.temporal op) ty (es.map (Expr.footprint s)) frame := by
  cases op with
  | overlapped | nonOverlapped | concat =>
    rcases es with _ | ⟨a, _ | ⟨b, _ | ⟨c, es⟩⟩⟩
    · exact looks_refuse _
    · exact looks_refuse _
    · exact looks_truthPair (hes a (by simp)) (hes b (by simp)) frame _
    · exact looks_refuse _
  | delay =>
    rcases es with _ | ⟨a, _ | ⟨b, _ | ⟨c, _ | ⟨d, es⟩⟩⟩⟩
    · exact looks_refuse _
    · exact looks_refuse _
    · exact looks_refuse _
    · exact looks_delay a b (hes c (by simp)) frame
    · exact looks_refuse _

/-! ## Operators on truth values -/

theorem looks_equality (hes : ∀ e ∈ es, e.Traced s) (kind : Kind) (frame : Frame) :
    Looks s.symbols (equality s kind (es.map (Expr.lower s)) frame) (allAsks s es frame)
      fun _ => AllSettled s es frame := by
  unfold equality
  refine (looks_two kind _).then fun p ⟨a, b, hab, hp⟩ => ?_
  subst hab hp
  simp only [Expr.expr_lower]
  split
  · exact looks_truthPair (hes a (by simp)) (hes b (by simp)) frame _
  · refine (looks_wordPair hes kind frame).finally fun p ⟨_, hlen, hsettled⟩ => ?_
    exact (looks_gated (Word.gives_equal hlen)).imp fun _ _ => hsettled

theorem looks_relation (op : Relation) {a b : Word} (h : a.length = b.length) (signed : Bool) :
    Looks s.symbols (relation op a b signed) ∅ fun _ => True := by
  have hless : Looks s.symbols (gated (a.lessThan b signed)) ∅ fun _ => True :=
    looks_gated (Word.gives_lessThan h signed)
  have hgreater : Looks s.symbols (gated (b.lessThan a signed)) ∅ fun _ => True :=
    looks_gated (Word.gives_lessThan h.symm signed)
  cases op with
  | lt => exact hless
  | gt => exact hgreater
  | le => exact hgreater.then fun _ _ => .pure trivial
  | ge => exact hless.then fun _ _ => .pure trivial

/-- One bit of a word, also where only that bit of a variable is read. -/
theorem looks_extractBit (hes : ∀ e ∈ es, e.Traced s) (ty : Ty) (frame : Frame) :
    Looks s.symbols (extractBit s (es.map (Expr.lower s)) frame)
      (Footprint.nodeAsks s .extractBit ty (es.map (Expr.footprint s)) frame)
      fun _ => Footprint.nodeSettled s .extractBit ty (es.map (Expr.footprint s)) frame := by
  unfold extractBit
  refine (looks_two .extractBit _).then fun p ⟨a, i, hab, hp⟩ => ?_
  subst hab hp
  simp only [Expr.expr_lower]
  refine (looks_constantIndex i .extractBit _).then fun k ⟨hconstant, hk, hlt⟩ => ?_
  show Looks _ _ (Footprint.bitAsks s (a.footprint s) (i.footprint s) frame) fun _ =>
    (i.footprint s).expr.toInteger?.isSome ∧ (i.footprint s).index <
      s.types.width (a.footprint s).expr.ty ∧ (a.footprint s).settled frame
  subst hk
  rw [Footprint.index, Expr.expr_footprint, Expr.expr_footprint]
  split
  · rename_i name hkind
    rw [Footprint.bitAsks_of_symbol s (by rw [Expr.expr_footprint, hkind]), Expr.expr_footprint]
    refine Looks.congr ((looks_bit s.symbols .current frame name _).imp fun l _ => ?_) ?_
    · exact ⟨hconstant, hlt, Expr.settled_of_symbol hkind (Nat.zero_lt_of_lt hlt) frame⟩
    · ext n
      rw [Footprint.index, Expr.expr_footprint]
      exact ⟨fun hn => ⟨hlt, hn⟩, And.right⟩
  · rename_i hkind
    rw [Footprint.bitAsks_of_ne s (by rwa [Expr.expr_footprint])]
    refine ((hes a List.mem_cons_self).word frame).finally fun w hw => ?_
    refine (looks_sameWidth _ w.length).then fun _ hlength => ?_
    exact (looks_bitOf (hlength ▸ hlt)).imp fun _ _ => ⟨hconstant, hlt, hw⟩

/-- A node whose kind gives a literal by nature. -/
theorem looks_logical (hes : ∀ e ∈ es, e.Traced s) (kind : Kind) (ty : Ty) (frame : Frame) :
    Looks s.symbols (logical s kind (es.map (Expr.lower s)) frame)
      (Footprint.nodeAsks s kind ty (es.map (Expr.footprint s)) frame)
      fun _ => Footprint.nodeSettled s kind ty (es.map (Expr.footprint s)) frame := by
  cases kind with
  | truth value => exact .pure trivial
  | not =>
    refine (looks_one .not _).then fun a ⟨e, he, ha⟩ => ?_
    subst he ha
    show Looks _ _ (allAsks s [e] frame) fun _ => AllSettled s [e] frame
    rw [allAsks_cons, allAsks_nil, Set.union_empty]
    exact ((hes e (by simp)).truth frame).finally fun l hl => .pure (by simp [hl])
  | connective op =>
    exact (looks_mapM frame fun e he => (hes e he).truth frame).finally fun ls hls =>
      (looks_build _).imp fun _ _ => hls
  | implies =>
    refine (looks_two .implies _).then fun p ⟨a, b, hab, hp⟩ => ?_
    subst hab hp
    exact looks_truthPair (hes a (by simp)) (hes b (by simp)) frame _
  | equality negated =>
    exact (looks_equality hes _ frame).finally fun l hl => .pure hl
  | ite =>
    refine (looks_three .ite _).then fun p ⟨c, a, b, habc, hp⟩ => ?_
    subst habc hp
    show Looks _ _ (allAsks s [c, a, b] frame) fun _ => AllSettled s [c, a, b] frame
    rw [allAsks_cons, allAsks_cons, allAsks_cons, allAsks_nil, Set.union_empty]
    refine ((hes c (by simp)).truth frame).bind fun z hz => ?_
    refine ((hes a (by simp)).truth frame).bind fun x hx => ?_
    refine ((hes b (by simp)).truth frame).finally fun y hy => ?_
    exact (looks_build _).imp fun _ _ => by simp [hx, hy, hz]
  | relation op =>
    refine (looks_wordPair hes _ frame).finally fun p ⟨hne, hlen, hsettled⟩ => ?_
    refine (looks_leading hne).then fun a _ => ?_
    exact (looks_relation op hlen _).imp fun _ _ => hsettled
  | extractBit => exact looks_extractBit hes ty frame
  | temporal op =>
    show Looks s.symbols (if s.symbols.multiStep then _ else _) _ _
    split
    · exact looks_temporal hes op ty frame
    · exact looks_refuse _
  | symbol | nextSymbol | constant | nil | complement | negate | binary | extractBits | concat
  | cast => exact looks_refuse _

/-! ## Operators on words -/

theorem looks_extractBits (hes : ∀ e ∈ es, e.Traced s) (ty : Ty) (frame : Frame) :
    Looks s.symbols (extractBits (s.types.width ty) (es.map (Expr.lower s)) frame)
      (Footprint.nodeAsks s .extractBits ty (es.map (Expr.footprint s)) frame)
      fun _ => Footprint.nodeSettled s .extractBits ty (es.map (Expr.footprint s)) frame := by
  unfold extractBits
  refine (looks_three .extractBits _).then fun p ⟨a, last, first, hab, hp⟩ => ?_
  subst hab hp
  simp only [Expr.expr_lower]
  refine ((hes a (by simp)).word frame).finally fun w hw => ?_
  refine (looks_constantIndex last _ _).then fun upper ⟨hlast, _, hlt⟩ => ?_
  refine (looks_constantIndex first _ _).then fun lower ⟨hfirst, _⟩ => ?_
  split
  · exact looks_refuse _
  · rename_i hle
    refine (looks_sameWidth _ _).then fun _ _ => ?_
    refine (looks_slice (Nat.not_lt.1 hle) hlt).imp fun _ _ => ?_
    simp [Footprint.nodeSettled, hlast, hfirst, hw]

/-- An operator on one word. -/
theorem looks_unary (hes : ∀ e ∈ es, e.Traced s) (kind : Kind) (frame : Frame)
    {f : Operand → Word → Lower Word} (hf : ∀ a w, Looks s.symbols (f a w) ∅ fun _ => True) :
    Looks s.symbols (do
        let a ← one kind (es.map (Expr.lower s))
        let w ← a.word frame
        f a w) (allAsks s es frame) fun _ => AllSettled s es frame := by
  refine (looks_one kind _).then fun a ⟨e, he, ha⟩ => ?_
  subst he ha
  rw [allAsks_cons, allAsks_nil, Set.union_empty]
  refine ((hes e (by simp)).word frame).finally fun w hw => ?_
  exact (hf _ w).imp fun _ _ => by simp [hw]

/-- A node whose kind gives a word by nature, or a conditional. -/
theorem looks_wordy (hes : ∀ e ∈ es, e.Traced s) (kind : Kind) (ty : Ty) (frame : Frame) :
    Looks s.symbols (wordy s (.node kind ty es) (es.map (Expr.lower s)) frame)
      (Footprint.nodeAsks s kind ty (es.map (Expr.footprint s)) frame)
      fun _ => Footprint.nodeSettled s kind ty (es.map (Expr.footprint s)) frame := by
  cases kind with
  | symbol name =>
    show Looks s.symbols (if _ then _ else _) _ _
    split
    · exact looks_refuse _
    · rename_i hwidth
      exact (looks_word s.symbols .current frame name _).imp fun _ _ => Nat.pos_of_ne_zero hwidth
  | nextSymbol name =>
    show Looks s.symbols (if _ then _ else _) _ _
    split
    · exact looks_refuse _
    · rename_i hwidth
      exact (looks_word s.symbols .next frame name _).imp fun _ _ => Nat.pos_of_ne_zero hwidth
  | constant n =>
    show Looks s.symbols (if _ then _ else _) _ _
    split
    · exact looks_refuse _
    · exact .pure trivial
  | complement => exact looks_unary hes .complement frame fun a w => .pure trivial
  | negate =>
    exact looks_unary hes .negate frame fun a w =>
      (looks_gated (Word.gives_negate w)).imp fun _ _ => trivial
  | binary op =>
    refine (looks_wordPair hes _ frame).finally fun p ⟨_, hlen, hsettled⟩ => ?_
    refine (looks_sameWidth _ p.1.length).then fun _ _ => ?_
    exact (looks_gated (Word.gives_wordOp op hlen)).imp fun _ _ => hsettled
  | ite =>
    refine (looks_three .ite _).then fun p ⟨c, a, b, habc, hp⟩ => ?_
    subst habc hp
    show Looks _ _ (allAsks s [c, a, b] frame) fun _ => AllSettled s [c, a, b] frame
    rw [allAsks_cons, allAsks_cons, allAsks_cons, allAsks_nil, Set.union_empty]
    refine ((hes c (by simp)).truth frame).bind fun z hz => ?_
    refine ((hes a (by simp)).word frame).bind fun x hx => ?_
    refine ((hes b (by simp)).word frame).finally fun y hy => ?_
    refine (looks_sameWidth x.length y.length).then fun _ hlen => ?_
    exact (looks_gated (Word.gives_mux z hlen)).imp fun _ _ => by simp [hx, hy, hz]
  | extractBits => exact looks_extractBits hes ty frame
  | concat =>
    have hreverse : ∀ e ∈ es.reverse, e.Traced s := fun e he => hes e (List.mem_reverse.1 he)
    show Looks s.symbols ((es.map _).reverse.mapM _ >>= _) _ _
    rw [← List.map_reverse]
    refine ((looks_mapM frame fun e he => (hreverse e he).word frame).congr ?_).finally
      fun ws hws => (looks_sameWidth _ _).then fun _ _ => .pure ?_
    · ext n
      simp [allAsks, Footprint.nodeAsks]
    · intro a ha
      refine hws a ?_
      rw [List.map_reverse, List.mem_reverse]
      exact ha
  | cast =>
    refine looks_unary hes .cast frame fun a w => ?_
    split
    · exact looks_refuse _
    · exact .pure trivial
  | truth | nil | not | connective | implies | equality | relation | extractBit
  | temporal => exact looks_refuse _

/-! ## Nodes -/

theorem looks_truthOf (hes : ∀ e ∈ es, e.Traced s) (kind : Kind) (ty : Ty) (frame : Frame) :
    Looks s.symbols (truthOf s (.node kind ty es) (es.map (Expr.lower s)) frame)
      (Footprint.nodeAsks s kind ty (es.map (Expr.footprint s)) frame)
      fun _ => Footprint.nodeSettled s kind ty (es.map (Expr.footprint s)) frame := by
  have hword : Looks s.symbols
      (truthOf.ofWord s (.node kind ty es) (es.map (Expr.lower s)) frame)
      (Footprint.nodeAsks s kind ty (es.map (Expr.footprint s)) frame)
      fun _ => Footprint.nodeSettled s kind ty (es.map (Expr.footprint s)) frame := by
    unfold truthOf.ofWord
    split
    · exact (looks_wordy hes kind ty frame).finally fun w hw => (looks_oneBit w).imp fun _ _ => hw
    · exact looks_refuse _
  have hlogical := looks_logical hes kind ty frame
  cases kind with
  | constant n =>
    show Looks s.symbols (if _ then _ else _) _ _
    split
    · exact .pure trivial
    · exact hword
  | symbol | nextSymbol | complement | negate | binary | extractBits | concat | cast =>
    exact hword
  | truth | nil | not | connective | implies | equality | ite | relation | extractBit
  | temporal => exact hlogical

theorem looks_wordOf (hes : ∀ e ∈ es, e.Traced s) (kind : Kind) (ty : Ty) (frame : Frame) :
    Looks s.symbols (wordOf s (.node kind ty es) (es.map (Expr.lower s)) frame)
      (Footprint.nodeAsks s kind ty (es.map (Expr.footprint s)) frame)
      fun _ => Footprint.nodeSettled s kind ty (es.map (Expr.footprint s)) frame := by
  unfold wordOf
  split
  · exact looks_wordy hes kind ty frame
  · split
    · exact (looks_logical hes kind ty frame).finally fun l hl => .pure hl
    · exact looks_refuse _

end Lower

namespace Expr

variable {s : Setting}

/-- Lowering any expression asks the questions of its footprint. -/
theorem traced (s : Setting) (e : Expr) : e.Traced s := by
  induction e using Expr.induction with
  | node kind ty es ih =>
    constructor
    · intro frame
      have h := Lower.looks_truthOf ih kind ty frame
      simp only [← lowerAll_eq_map, ← footprints_eq_map] at h
      exact h
    · intro frame
      have h := Lower.looks_wordOf ih kind ty frame
      simp only [← lowerAll_eq_map, ← footprints_eq_map] at h
      exact h

/-! ## Requirements -/

open Lower (Looks allAsks AllSettled)

theorem looks_anyBound (name : String) (width : Nat) :
    Looks s.symbols (anyBound name width) ∅ fun _ => True :=
  Lower.looks_of_run fun t => ⟨_, t.circuit, rfl, trivial⟩

/-- The bits of a word bind the bits of a name, one each. -/
theorem looks_bindFrom (name : String) (frame : Frame) (i : Nat) (w : Word) :
    Looks .onDemand (bindFrom name i w) (Symbols.onDemand.notes .current frame name i w.length)
      fun _ => True := by
  induction w generalizing i with
  | nil =>
    rw [List.length_nil, Symbols.notes_zero]
    exact .pure trivial
  | cons l w ih =>
    rw [List.length_cons, Symbols.notes_succ]
    exact (Lower.looks_bind name i l).bind fun _ _ => ih (i + 1)

theorem looks_requireEqualBits (a b : Word) :
    Looks s.symbols (requireEqualBits a b) ∅ fun _ => True := by
  induction a generalizing b with
  | nil => exact .pure trivial
  | cons x a ih =>
    cases b with
    | nil => exact .pure trivial
    | cons y b => exact (Lower.looks_build _).then fun _ _ => ih b

/-- Requiring an expression asks the questions of its footprint. -/
theorem looks_requireTruth (e : Expr) (frame : Frame) :
    Looks s.symbols (e.requireTruth s frame) ((e.footprint s).asks frame)
      fun _ => (e.footprint s).settled frame :=
  ((e.traced s).truth frame).finally fun _ hl => (Lower.looks_build _).imp fun _ _ => hl

section OnDemand

variable {types : TypeTable} {lhs rhs : Expr} {name : String}

/-- The questions of a variable are those for its bits. -/
theorem asks_of_symbol (hlhs : lhs.kind = .symbol name) (frame : Frame) :
    (lhs.footprint s).asks frame =
      s.symbols.notes .current frame name 0 (s.types.width lhs.ty) := by
  obtain ⟨kind, ty, es⟩ := lhs
  obtain rfl : kind = .symbol name := hlhs
  rfl

/-- What is left of requiring an equality by itself once the variable is known to have no literals:
its bits are bound to those of the expression, or made equal to them. -/
def bindWord (types : TypeTable) (name : String) (lhs rhs : Expr) (frame : Frame) : Lower Bool := do
  let w ← rhs.toWord ⟨types, .onDemand⟩ frame
  if w.length ≠ types.width lhs.ty || (← anyBound name (types.width lhs.ty)) then
    let own ← lhs.toWord ⟨types, .onDemand⟩ frame
    Lower.sameWidth own.length w.length
    requireEqualBits own w
  else
    bindFrom name 0 w
  return true

theorem looks_bindWord (hlhs : lhs.kind = .symbol name) (hwidth : 0 < types.width lhs.ty)
    (frame : Frame) :
    Looks .onDemand (bindWord types name lhs rhs frame)
      (allAsks ⟨types, .onDemand⟩ [lhs, rhs] frame)
      fun bound => bound = true ∧ AllSettled ⟨types, .onDemand⟩ [lhs, rhs] frame := by
  unfold bindWord
  have hsettled := settled_of_symbol (s := ⟨types, .onDemand⟩) hlhs hwidth frame
  rw [Lower.allAsks_cons, Lower.allAsks_cons, Lower.allAsks_nil, Set.union_empty, Set.union_comm]
  refine ((rhs.traced ⟨types, .onDemand⟩).word frame).bind fun w hw => ?_
  refine (looks_anyBound (s := ⟨types, .onDemand⟩) name _).then fun late _ => ?_
  have hboth : AllSettled ⟨types, .onDemand⟩ [lhs, rhs] frame := by simp [hsettled, hw]
  split
  · refine ((lhs.traced ⟨types, .onDemand⟩).word frame).finally fun own _ => ?_
    refine (Lower.looks_sameWidth own.length w.length).then fun _ _ => ?_
    exact (looks_requireEqualBits (s := ⟨types, .onDemand⟩) own w).then fun _ _ =>
      .pure ⟨rfl, hboth⟩
  · rename_i hequal
    have hlength : w.length = types.width lhs.ty := by
      by_contra hne
      simp [hne] at hequal
    rw [asks_of_symbol hlhs, ← hlength]
    exact (looks_bindFrom name frame 0 w).finally fun _ _ => .pure ⟨rfl, hboth⟩

/-- An equality asks the questions of its sides, whether it is required by itself or by its truth
value. -/
theorem looks_bindSymbol {f : Bool → Lower Unit} (frame : Frame)
    (hbound : Looks .onDemand (f true) ∅ fun _ => True)
    (hunbound : Looks .onDemand (f false) (allAsks ⟨types, .onDemand⟩ [lhs, rhs] frame)
      fun _ => AllSettled ⟨types, .onDemand⟩ [lhs, rhs] frame) :
    Looks .onDemand (bindSymbol ⟨types, .onDemand⟩ lhs rhs frame >>= f)
      (allAsks ⟨types, .onDemand⟩ [lhs, rhs] frame)
      fun _ => AllSettled ⟨types, .onDemand⟩ [lhs, rhs] frame := by
  unfold bindSymbol
  split
  · rename_i name hlhs
    dsimp only
    split
    · exact hunbound
    · rename_i hwidth
      rw [bind_assoc]
      refine (looks_anyBound (s := ⟨types, .onDemand⟩) name _).then fun early _ => ?_
      split
      · exact hunbound
      · refine (looks_bindWord hlhs (Nat.pos_of_ne_zero hwidth) frame).finally
          fun bound ⟨htrue, hboth⟩ => ?_
        subst htrue
        exact hbound.imp fun _ _ => hboth
  · exact hunbound

end OnDemand

/-- Going through expressions in order asks the questions of all of them. -/
theorem looks_forM {f : Expr → Lower Unit} {es : List Expr} {frame : Frame}
    (hes : ∀ e ∈ es, Looks s.symbols (f e) ((e.footprint s).asks frame)
      fun _ => (e.footprint s).settled frame) :
    Looks s.symbols (es.forM f) (allAsks s es frame) fun _ => AllSettled s es frame := by
  induction es with
  | nil =>
    rw [Lower.allAsks_nil]
    exact .pure (Lower.allSettled_nil frame)
  | cons e es ih =>
    obtain ⟨he, hes⟩ := List.forall_mem_cons.1 hes
    rw [Lower.allAsks_cons]
    exact he.bind fun _ he => (ih hes).imp fun _ hes => (Lower.allSettled_cons e frame).2 ⟨he, hes⟩

theorem requireAll_eq_forM (s : Setting) (es : List Expr) (frame : Frame) :
    requireAll s es frame = es.forM fun e => e.require s frame := by
  induction es with
  | nil => rfl
  | cons e es ih =>
    rw [requireAll, ih]
    rfl

/-- Requiring an expression asks the questions of its footprint, whatever becomes of its equalities
on the way. -/
theorem looks_require (s : Setting) (e : Expr) (frame : Frame) :
    Looks s.symbols (e.require s frame) ((e.footprint s).asks frame)
      fun _ => (e.footprint s).settled frame := by
  induction e using require_induction with
  | conjunction ty es ih =>
    have h := looks_forM ih
    rw [← requireAll_eq_forM, allAsks, ← footprints_eq_map] at h
    exact h.imp fun _ hes => by rwa [AllSettled, ← footprints_eq_map] at hes
  | equality ty lhs rhs =>
    obtain ⟨types, symbols⟩ := s
    cases symbols with
    | mapped r =>
      rw [require_equality]
      exact looks_requireTruth _ frame
    | onDemand =>
      exact looks_bindSymbol frame (.pure trivial)
        (looks_requireTruth (s := ⟨types, .onDemand⟩) (.node (.equality false) ty [lhs, rhs]) frame)
  | other e htruth =>
    rw [htruth]
    exact looks_requireTruth e frame

end Expr

end BitUnroll
