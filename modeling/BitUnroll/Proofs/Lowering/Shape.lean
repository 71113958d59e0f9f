import BitUnroll.Proofs.Lowering.Requirements
import BitUnroll.Proofs.Word.Lengths

/-!
# Lowering expressions of the right shapes

An expression all of whose nodes have the operands that they want is never refused for their number,
and its word, if it has one, has as many bits as its type. For most kinds of node lowering
checks the width itself. It does not for the complement and the negation of a word and for a
conditional, whose width is that of an operand; there the shape has it that the types are the same.

## Main definitions

* `Lower.Delivers`: a computation is not refused for a number of operands, and what is known of its
  result.

## Main statements

* `Expr.Shaped.delivers`, `Expr.Shaped.delivers_require`: lowering and requiring an expression of
  the right shape.
-/

namespace BitUnroll

namespace Lower

variable {α β : Type} {post : α → Prop}

/-- Whatever state a computation starts in, it is not refused for a number of operands, and its
result, if there is one, has a property. -/
structure Delivers (x : Lower α) (post : α → Prop) : Prop where
  result : Yields x post
  operands : ∀ s kind expected got, (x.run s).1 ≠ .error (.refused (.operands kind expected got))

/-! ## Structure -/

theorem Delivers.pure {a : α} (h : post a) : Delivers (Pure.pure a) post where
  result := .pure h
  operands _ _ _ _ hb := nomatch hb

theorem Delivers.bind {x : Lower α} {f : α → Lower β} {mid : α → Prop} {post : β → Prop}
    (hx : Delivers x mid) (hf : ∀ a, mid a → Delivers (f a) post) : Delivers (x >>= f) post where
  result := hx.result.bind fun a ha => (hf a ha).result
  operands s kind expected got hb := by
    have hresult := hx.result s
    have hoperands := hx.operands s kind expected got
    rw [run_bind] at hb
    rcases h : (x.run s : Except Fault α × Lowering) with ⟨e | a, s'⟩ <;>
      rw [h] at hb hresult hoperands
    · exact hoperands (congrArg Except.error (Except.error.inj hb))
    · exact (hf a (hresult a rfl)).operands s' kind expected got hb

theorem Delivers.imp {x : Lower α} {mid : α → Prop} (hx : Delivers x mid)
    (h : ∀ a, mid a → post a) : Delivers x post := ⟨hx.result.imp h, hx.operands⟩

/-- What is refused for another reason. -/
theorem delivers_refuse {e : LoweringError}
    (h : ∀ kind expected got, e ≠ .operands kind expected got) : Delivers (refuse e) post where
  result := yields_refuse e
  operands _ _ _ _ hb := h _ _ _ (Fault.refused.inj (Except.error.inj hb))

theorem delivers_crash (c : Crash) : Delivers (crash c) post where
  result _ _ hb := nomatch hb
  operands _ _ _ _ hb := nomatch Except.error.inj hb

/-- A computation that stops nowhere. -/
theorem delivers_of_ok {x : Lower α} (h : ∀ s, ∃ a, (x.run s).1 = .ok a ∧ post a) :
    Delivers x post where
  result s b hb := by
    obtain ⟨a, ha, hpost⟩ := h s
    rw [ha] at hb
    exact Except.ok.inj hb ▸ hpost
  operands s kind expected got hb := by
    obtain ⟨a, ha, -⟩ := h s
    rw [ha] at hb
    cases hb

theorem delivers_build (x : Build α) : Delivers (build x) fun _ => True :=
  delivers_of_ok fun s => ⟨(x s.circuit).1, rfl, trivial⟩

/-- An operation on words that the lengths do not stop. -/
theorem delivers_gated {x : Word.Gated α} (h : x.Gives post) : Delivers (gated x) post := by
  have hbuild : Delivers (build x.run) fun r => ∃ a, r = .ok a ∧ post a :=
    delivers_of_ok fun s => ⟨_, rfl, h s.circuit⟩
  refine hbuild.bind fun r hr => ?_
  obtain ⟨a, rfl, ha⟩ := hr
  exact .pure ha

/-! ## Checks -/

theorem delivers_sameWidth (m n : Nat) : Delivers (sameWidth m n) fun _ => m = n := by
  unfold sameWidth
  split
  · exact .pure ‹_›
  · exact delivers_refuse nofun

theorem delivers_oneBit (w : Word) : Delivers (oneBit w) fun _ => True := by
  unfold oneBit
  split
  · exact .pure trivial
  · exact delivers_refuse nofun

theorem delivers_bitOf (w : Word) (i : Nat) : Delivers (bitOf w i) fun _ => True := by
  unfold bitOf
  split
  · exact .pure trivial
  · exact delivers_crash _

theorem delivers_slice (w : Word) (upper lower : Nat) :
    Delivers (slice w upper lower) fun part => part.length = upper + 1 - lower := by
  unfold slice
  split
  · refine .pure ?_
    rw [Word.slice, List.length_take, List.length_drop]
    omega
  · exact delivers_crash _

theorem delivers_shift (f : Frame) (offset : Nat) : Delivers (shift f offset) fun _ => True := by
  unfold shift
  split
  · exact .pure trivial
  · exact delivers_refuse nofun

theorem delivers_constantIndex (e : Expr) (kind : Kind) (width : Nat) :
    Delivers (constantIndex e kind width) fun _ => True := by
  unfold constantIndex
  split
  · exact delivers_refuse nofun
  · split
    · exact .pure trivial
    · exact delivers_refuse nofun

/-! ## Symbols -/

theorem delivers_ask (r : Resolver) (name : String) (bit t : Nat) :
    Delivers (ask r name bit t) fun _ => True := by
  have hnote : Delivers (modify fun s : Lowering => { s with reads := s.reads.push ⟨name, bit, t⟩ })
      fun _ => True := delivers_of_ok fun _ => ⟨(), rfl, trivial⟩
  refine hnote.bind fun _ _ => ?_
  split
  · exact .pure trivial
  · exact delivers_crash _

theorem delivers_demand (name : String) (bit : Nat) : Delivers (demand name bit) fun _ => True := by
  have hbound : Delivers (bound? name bit) fun _ => True :=
    delivers_of_ok fun _ => ⟨_, rfl, trivial⟩
  have hbind : ∀ l, Delivers (Lower.bind name bit l) fun _ => True :=
    fun _ => delivers_of_ok fun _ => ⟨(), rfl, trivial⟩
  refine hbound.bind fun l? _ => ?_
  split
  · exact .pure trivial
  · exact (delivers_build _).bind fun l _ => (hbind l).bind fun _ _ => .pure trivial

theorem delivers_bit (symbols : Symbols) (phase : Phase) (frame : Frame) (name : String) (i : Nat) :
    Delivers (symbols.bit phase frame name i) fun _ => True := by
  cases symbols with
  | mapped r => cases phase <;> exact delivers_ask r name i _
  | onDemand => cases phase <;> exact delivers_demand _ i

/-- The word of a variable has as many bits as are asked for. -/
theorem delivers_word (symbols : Symbols) (phase : Phase) (frame : Frame) (name : String)
    (width : Nat) :
    Delivers (symbols.word phase frame name width) fun w => w.length = width := by
  unfold Symbols.word
  generalize 0 = i
  induction width generalizing i with
  | zero => exact .pure rfl
  | succ count ih =>
    exact (delivers_bit symbols phase frame name i).bind fun l _ =>
      (ih (i + 1)).bind fun w hw => .pure (congrArg (· + 1) hw)

end Lower

/-- An expression is not refused for a number of operands, and its word has the width of its
type. -/
structure Expr.Delivers (s : Setting) (e : Expr) : Prop where
  truth : ∀ frame, (e.toLiteral s frame).Delivers fun _ => True
  word : ∀ frame, (e.toWord s frame).Delivers fun w => w.length = s.types.width e.ty

namespace Lower

variable {α : Type} {s : Setting} {es : List Expr} {frame : Frame}

/-! ## Operands -/

theorem delivers_mapM {f : Operand → Lower α}
    (hes : ∀ e ∈ es, (f (e.lower s)).Delivers fun _ => True) :
    Delivers ((es.map (Expr.lower s)).mapM f) fun _ => True := by
  induction es with
  | nil => exact .pure trivial
  | cons e es ih =>
    obtain ⟨he, hes⟩ := List.forall_mem_cons.1 hes
    rw [List.map_cons, List.mapM_cons]
    exact he.bind fun _ _ => (ih hes).bind fun _ _ => .pure trivial

/-- The words of two operands have one width. -/
theorem delivers_wordPair (kind : Kind) {a b : Expr} (ha : a.Delivers s) (hb : b.Delivers s) :
    Delivers (wordPair kind [a.lower s, b.lower s] frame) fun p => p.1.length = p.2.length :=
  (ha.word frame).bind fun _ _ => (hb.word frame).bind fun _ _ =>
    (delivers_sameWidth _ _).bind fun _ hlength => .pure hlength

theorem delivers_truthPair {a b : Expr} (ha : a.Delivers s) (hb : b.Delivers s)
    (gate : Literal → Literal → Build Literal) :
    Delivers (do
      let x ← a.toLiteral s frame
      let y ← b.toLiteral s frame
      build (gate x y)) fun _ => True :=
  (ha.truth frame).bind fun _ _ => (hb.truth frame).bind fun _ _ => delivers_build _

/-! ## Operators on timeframes -/

theorem delivers_delays {body : Expr} (hbody : body.Delivers s) (offset count : Nat) :
    Delivers (delays (body.lower s) frame offset count) fun _ => True := by
  induction count generalizing offset with
  | zero => exact .pure trivial
  | succ count ih =>
    exact (delivers_shift frame offset).bind fun g _ => (hbody.truth g).bind fun _ _ =>
      (ih (offset + 1)).bind fun _ _ => .pure trivial

theorem delivers_delay (first last : Expr) {body : Expr} (hbody : body.Delivers s) :
    Delivers (delay (first.lower s) (last.lower s) (body.lower s) frame) fun _ => True := by
  unfold delay
  split
  · split
    · exact delivers_refuse nofun
    · exact (delivers_shift frame _).bind fun g _ => hbody.truth g
  · split
    · exact (delivers_delays hbody _ _).bind fun _ _ => delivers_build _
    · exact delivers_refuse nofun

/-- Operators on timeframes are refused as such where they have other operands. -/
theorem delivers_temporal (hes : ∀ e ∈ es, e.Delivers s) (op : Temporal) :
    Delivers (temporal op (es.map (Expr.lower s)) frame) fun _ => True := by
  cases op with
  | overlapped | nonOverlapped | concat =>
    rcases es with _ | ⟨a, _ | ⟨b, _ | ⟨c, es⟩⟩⟩
    · exact delivers_refuse nofun
    · exact delivers_refuse nofun
    · exact delivers_truthPair (hes a (by simp)) (hes b (by simp)) _
    · exact delivers_refuse nofun
  | delay =>
    rcases es with _ | ⟨a, _ | ⟨b, _ | ⟨c, _ | ⟨d, es⟩⟩⟩⟩
    · exact delivers_refuse nofun
    · exact delivers_refuse nofun
    · exact delivers_refuse nofun
    · exact delivers_delay a b (hes c (by simp))
    · exact delivers_refuse nofun

/-! ## Operators on truth values -/

theorem delivers_relation (op : Relation) {a b : Word} (h : a.length = b.length) (signed : Bool) :
    Delivers (relation op a b signed) fun _ => True := by
  have hless := delivers_gated (Word.gives_lessThan h signed)
  have hgreater := delivers_gated (Word.gives_lessThan h.symm signed)
  cases op with
  | lt => exact hless
  | gt => exact hgreater
  | le => exact hgreater.bind fun _ _ => .pure trivial
  | ge => exact hless.bind fun _ _ => .pure trivial

theorem delivers_equality (kind : Kind) {a b : Expr} (ha : a.Delivers s) (hb : b.Delivers s) :
    Delivers (equality s kind [a.lower s, b.lower s] frame) fun _ => True := by
  show Delivers (if _ then _ else _) _
  split
  · exact delivers_truthPair ha hb _
  · exact (delivers_wordPair kind ha hb).bind fun _ hlength =>
      delivers_gated (Word.gives_equal hlength)

theorem delivers_extractBit {a index : Expr} (ha : a.Delivers s) :
    Delivers (extractBit s [a.lower s, index.lower s] frame) fun _ => True := by
  refine (delivers_constantIndex _ _ _).bind fun i _ => ?_
  split
  · exact delivers_bit s.symbols .current frame _ i
  · exact (ha.word frame).bind fun w _ => (delivers_sameWidth _ _).bind fun _ _ =>
      delivers_bitOf w i

/-- A node whose kind gives a literal by nature. -/
theorem delivers_logical {kind : Kind} {ty : Ty} (hshape : kind.Shapes ty es)
    (hes : ∀ e ∈ es, e.Delivers s) :
    Delivers (logical s kind (es.map (Expr.lower s)) frame) fun _ => True := by
  cases kind with
  | truth value => exact .pure trivial
  | not =>
    obtain ⟨a, rfl⟩ := hshape
    exact ((hes a (by simp)).truth frame).bind fun _ _ => .pure trivial
  | connective op =>
    exact (delivers_mapM fun e he => (hes e he).truth frame).bind fun _ _ => delivers_build _
  | implies =>
    obtain ⟨a, b, rfl⟩ := hshape
    exact delivers_truthPair (hes a (by simp)) (hes b (by simp)) _
  | equality negated =>
    obtain ⟨a, b, rfl⟩ := hshape
    exact (delivers_equality _ (hes a (by simp)) (hes b (by simp))).bind fun _ _ => .pure trivial
  | ite =>
    obtain ⟨c, a, b, rfl, -⟩ := hshape
    exact ((hes c (by simp)).truth frame).bind fun _ _ =>
      delivers_truthPair (hes a (by simp)) (hes b (by simp)) _
  | relation op =>
    obtain ⟨a, b, rfl⟩ := hshape
    exact (delivers_wordPair _ (hes a (by simp)) (hes b (by simp))).bind fun _ hlength =>
      delivers_relation op hlength _
  | extractBit =>
    obtain ⟨a, index, rfl⟩ := hshape
    exact delivers_extractBit (hes a (by simp))
  | temporal op =>
    show Delivers (if s.symbols.multiStep = true then _ else _) _
    split
    · exact delivers_temporal hes op
    · exact delivers_refuse nofun
  | symbol | nextSymbol | constant | nil | complement | negate | binary | extractBits | concat
  | cast => exact delivers_refuse nofun

/-! ## Operators on words -/

theorem delivers_extractBits {a : Expr} (ha : a.Delivers s) (last first : Expr) (width : Nat) :
    Delivers (extractBits width [a.lower s, last.lower s, first.lower s] frame)
      fun w => w.length = width := by
  refine (ha.word frame).bind fun w _ => ?_
  refine (delivers_constantIndex _ _ _).bind fun upper _ => ?_
  refine (delivers_constantIndex _ _ _).bind fun lower _ => ?_
  split
  · exact delivers_refuse nofun
  · refine (delivers_sameWidth _ _).bind fun _ hwidth => ?_
    refine (delivers_slice w upper lower).imp fun part hlength => ?_
    omega

/-- The word of a node has the width of its type. -/
theorem delivers_wordy {kind : Kind} {ty : Ty} (hshape : kind.Shapes ty es)
    (hes : ∀ e ∈ es, e.Delivers s) :
    Delivers (wordy s (.node kind ty es) (es.map (Expr.lower s)) frame)
      fun w => w.length = s.types.width ty := by
  cases kind with
  | symbol name =>
    show Delivers (if _ then _ else _) _
    split
    · exact delivers_refuse nofun
    · exact delivers_word s.symbols .current frame name _
  | nextSymbol name =>
    show Delivers (if _ then _ else _) _
    split
    · exact delivers_refuse nofun
    · exact delivers_word s.symbols .next frame name _
  | constant n =>
    show Delivers (if _ then _ else _) _
    split
    · exact delivers_refuse nofun
    · exact .pure (Word.length_ofInt _ n)
  | complement =>
    obtain ⟨a, rfl, rfl⟩ := hshape
    exact ((hes a (by simp)).word frame).bind fun w hw => .pure (w.length_complement.trans hw)
  | negate =>
    obtain ⟨a, rfl, rfl⟩ := hshape
    exact ((hes a (by simp)).word frame).bind fun w hw =>
      (delivers_gated w.gives_negate).imp fun _ hlength => hlength.trans hw
  | binary op =>
    obtain ⟨a, b, rfl⟩ := hshape
    refine (delivers_wordPair _ (hes a (by simp)) (hes b (by simp))).bind fun p hlength => ?_
    refine (delivers_sameWidth _ _).bind fun _ hwidth => ?_
    exact (delivers_gated (Word.gives_wordOp op hlength)).imp fun _ hw => hw.trans hwidth.symm
  | ite =>
    obtain ⟨c, a, b, rfl, rfl⟩ := hshape
    refine ((hes c (by simp)).truth frame).bind fun z _ => ?_
    refine ((hes a (by simp)).word frame).bind fun x hx => ?_
    refine ((hes b (by simp)).word frame).bind fun y _ => ?_
    refine (delivers_sameWidth _ _).bind fun _ hlength => ?_
    exact (delivers_gated (Word.gives_mux z hlength)).imp fun _ hw => hw.trans hx
  | extractBits =>
    obtain ⟨a, last, first, rfl⟩ := hshape
    exact delivers_extractBits (hes a (by simp)) last first _
  | concat =>
    show Delivers ((es.map _).reverse.mapM _ >>= _) _
    rw [← List.map_reverse]
    have hword : ∀ e ∈ es.reverse, ((e.lower s).word frame).Delivers fun _ => True :=
      fun e he => ((hes e (List.mem_reverse.1 he)).word frame).imp fun _ _ => trivial
    exact (delivers_mapM hword).bind fun _ _ =>
      (delivers_sameWidth _ _).bind fun _ hwidth => .pure hwidth.symm
  | cast =>
    obtain ⟨a, rfl⟩ := hshape
    refine ((hes a (by simp)).word frame).bind fun w _ => ?_
    split
    · exact delivers_refuse nofun
    · exact .pure (w.length_resize _ _)
  | truth | nil | not | connective | implies | equality | relation | extractBit | temporal =>
    exact delivers_refuse nofun

/-! ## Nodes -/

theorem delivers_truthOf {kind : Kind} {ty : Ty} (hshape : kind.Shapes ty es)
    (hes : ∀ e ∈ es, e.Delivers s) (frame : Frame) :
    Delivers (truthOf s (.node kind ty es) (es.map (Expr.lower s)) frame) fun _ => True := by
  have hword : Delivers (truthOf.ofWord s (.node kind ty es) (es.map (Expr.lower s)) frame)
      fun _ => True := by
    unfold truthOf.ofWord
    split
    · exact (delivers_wordy hshape hes).bind fun w _ => delivers_oneBit w
    · exact delivers_refuse nofun
  have hlogical : Delivers (logical s kind (es.map (Expr.lower s)) frame) fun _ => True :=
    delivers_logical hshape hes
  cases kind with
  | constant n =>
    show Delivers (if _ then _ else _) _
    split
    · exact .pure trivial
    · exact hword
  | symbol | nextSymbol | complement | negate | binary | extractBits | concat | cast =>
    exact hword
  | truth | nil | not | connective | implies | equality | ite | relation | extractBit
  | temporal => exact hlogical

theorem delivers_wordOf {kind : Kind} {ty : Ty} (hshape : kind.Shapes ty es)
    (hes : ∀ e ∈ es, e.Delivers s) (frame : Frame) :
    Delivers (wordOf s (.node kind ty es) (es.map (Expr.lower s)) frame)
      fun w => w.length = s.types.width ty := by
  unfold wordOf
  split
  · exact delivers_wordy hshape hes
  · split
    · exact (delivers_logical hshape hes).bind fun _ _ =>
        .pure (TypeTable.width_of_isBool ‹_›).symm
    · exact delivers_refuse nofun

end Lower

namespace Expr

variable {s : Setting} {e : Expr}

/-- An expression of the right shape is not refused for a number of operands, and its word has the
width of its type. -/
theorem Shaped.delivers (h : e.Shaped) (s : Setting) : e.Delivers s := by
  induction e using Expr.induction with
  | node kind ty es ih =>
    obtain ⟨hshape, hes⟩ := shaped_node.1 h
    have hes : ∀ e ∈ es, e.Delivers s := fun e he => ih e he (hes e he)
    constructor
    · intro frame
      have h := Lower.delivers_truthOf hshape hes frame
      rwa [← lowerAll_eq_map] at h
    · intro frame
      have h := Lower.delivers_wordOf hshape hes frame
      rwa [← lowerAll_eq_map] at h

/-! ## Requirements -/

theorem delivers_anyBound (name : String) (width : Nat) :
    (anyBound name width).Delivers fun _ => True :=
  Lower.delivers_of_ok fun _ => ⟨_, rfl, trivial⟩

theorem delivers_bindFrom (name : String) (i : Nat) (w : Word) :
    (bindFrom name i w).Delivers fun _ => True := by
  induction w generalizing i with
  | nil => exact .pure trivial
  | cons l w ih =>
    have hbind : (Lower.bind name i l).Delivers fun _ => True :=
      Lower.delivers_of_ok fun _ => ⟨(), rfl, trivial⟩
    exact hbind.bind fun _ _ => ih (i + 1)

theorem delivers_requireEqualBits (a b : Word) :
    (requireEqualBits a b).Delivers fun _ => True := by
  induction a generalizing b with
  | nil => exact .pure trivial
  | cons x a ih =>
    cases b with
    | nil => exact .pure trivial
    | cons y b => exact (Lower.delivers_build _).bind fun _ _ => ih b

theorem delivers_bindSymbol {lhs rhs : Expr} (hlhs : lhs.Delivers s) (hrhs : rhs.Delivers s)
    (frame : Frame) : (bindSymbol s lhs rhs frame).Delivers fun _ => True := by
  unfold bindSymbol
  split
  · rename_i name _
    dsimp only
    split
    · exact .pure trivial
    · refine (delivers_anyBound name _).bind fun early _ => ?_
      split
      · exact .pure trivial
      · refine (hrhs.word frame).bind fun w _ => (delivers_anyBound name _).bind fun late _ => ?_
        split
        · refine (hlhs.word frame).bind fun own _ => ?_
          refine (Lower.delivers_sameWidth _ _).bind fun _ _ => ?_
          exact (delivers_requireEqualBits own w).bind fun _ _ => .pure trivial
        · exact (delivers_bindFrom name 0 w).bind fun _ _ => .pure trivial
  · exact .pure trivial

theorem Delivers.requireTruth (h : e.Delivers s) (frame : Frame) :
    (e.requireTruth s frame).Delivers fun _ => True :=
  (h.truth frame).bind fun _ _ => Lower.delivers_build _

theorem delivers_requireAll {es : List Expr} {frame : Frame}
    (hes : ∀ e ∈ es, (e.require s frame).Delivers fun _ => True) :
    (requireAll s es frame).Delivers fun _ => True := by
  induction es with
  | nil => exact .pure trivial
  | cons e es ih =>
    obtain ⟨he, hes⟩ := List.forall_mem_cons.1 hes
    exact he.bind fun _ _ => ih hes

/-- Requiring an expression of the right shape is not refused for a number of operands. -/
theorem Shaped.delivers_require (h : e.Shaped) (s : Setting) (frame : Frame) :
    (e.require s frame).Delivers fun _ => True := by
  induction e using require_induction with
  | conjunction ty es ih =>
    exact delivers_requireAll fun e he => ih e he ((shaped_node.1 h).2 e he)
  | equality ty lhs rhs =>
    have hes := (shaped_node.1 h).2
    have hequality : (requireEquality s (.node (.equality false) ty [lhs, rhs]) frame).Delivers
        fun _ => True := by
      obtain ⟨types, symbols⟩ := s
      cases symbols with
      | mapped r => exact .pure trivial
      | onDemand =>
        exact delivers_bindSymbol ((hes lhs (by simp)).delivers _) ((hes rhs (by simp)).delivers _)
          frame
    refine hequality.bind fun handled _ => ?_
    split
    · exact .pure trivial
    · exact (h.delivers s).requireTruth frame
  | other e htruth =>
    rw [htruth]
    exact (h.delivers s).requireTruth frame

end Expr

end BitUnroll
