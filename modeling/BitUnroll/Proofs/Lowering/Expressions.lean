import BitUnroll.Proofs.Circuit.Session
import BitUnroll.Proofs.Lowering.Rules
import BitUnroll.Symbols.Unrolled

/-!
# What lowered expressions stand for

Wherever the symbols come from, the literal and the word of an expression have its truth value and
its bits over every trace that is shown. This holds for one kind of node at a time, from the same
of its operands, and then for all expressions. With a resolver, the trace of the resolver's
literals is shown by every assignment that follows the gates.

## Main definitions

* `Expr.Sound`: an expression's literal and word mean its truth value and bits.
* `Resolver.Ready`: a netlist that lowering with a resolver can start from.
* `Expr.Faithful`: the literal and word of an expression, with a resolver.

## Main statements

* `Lower.extends_logical`, `Lower.extends_wordy`: one node.
* `Expr.sound`, `Expr.faithful`: all expressions.
-/

namespace BitUnroll

/-- An expression's literal and word mean its truth value and its bits. -/
structure Expr.Sound (types : TypeTable) (symbols : Symbols) (e : Expr) : Prop where
  truth : ∀ g frame, symbols.Ready g frame →
    Lower.Extends symbols g (e.toLiteral ⟨types, symbols⟩ frame) fun l g' =>
      l.Means symbols g' fun trace => e.truthAt types trace frame
  word : ∀ g frame, symbols.Ready g frame →
    Lower.Extends symbols g (e.toWord ⟨types, symbols⟩ frame) fun w g' =>
      w.Means symbols g' fun trace => e.bitsAt types trace frame

theorem Expr.lowerAll_eq_map (s : Setting) (es : List Expr) :
    Expr.lowerAll s es = es.map (Expr.lower s) := by
  induction es with
  | nil => rfl
  | cons e es ih => rw [Expr.lowerAll, ih, List.map_cons]

@[simp] theorem Expr.expr_lower (s : Setting) (e : Expr) : (e.lower s).expr = e := by
  cases e
  rfl

/-- The bits of a variable are those of the trace. -/
theorem Expr.bitsAt_of_symbol {types : TypeTable} {trace : Trace} {e : Expr} {name : String}
    (he : e.kind = .symbol name) (frame : Frame) : e.bitsAt types trace frame =
      (List.range (types.width e.ty)).map fun i => trace name i frame.current := by
  obtain ⟨kind, ty, es⟩ := e
  obtain rfl : kind = .symbol name := he
  rfl

namespace Lower

variable {types : TypeTable} {symbols : Symbols} {g : Stage} {frame : Frame} {es : List Expr}

/-! ## Operands -/

theorem extends_one (kind : Kind) (f : Expr → Operand) :
    Extends symbols g (one kind (es.map f)) fun a _ => ∃ e, es = [e] ∧ a = f e := by
  rcases es with _ | ⟨a, _ | ⟨b, es⟩⟩
  · exact extends_refuse _
  · exact .pure ⟨a, rfl, rfl⟩
  · exact extends_refuse _

theorem extends_two (kind : Kind) (f : Expr → Operand) :
    Extends symbols g (two kind (es.map f)) fun p _ => ∃ a b, es = [a, b] ∧ p = (f a, f b) := by
  rcases es with _ | ⟨a, _ | ⟨b, _ | ⟨c, es⟩⟩⟩
  · exact extends_refuse _
  · exact extends_refuse _
  · exact .pure ⟨a, b, rfl, rfl⟩
  · exact extends_refuse _

theorem extends_three (kind : Kind) (f : Expr → Operand) :
    Extends symbols g (three kind (es.map f)) fun p _ =>
      ∃ a b c, es = [a, b, c] ∧ p = (f a, f b, f c) := by
  rcases es with _ | ⟨a, _ | ⟨b, _ | ⟨c, _ | ⟨d, es⟩⟩⟩⟩
  · exact extends_refuse _
  · exact extends_refuse _
  · exact extends_refuse _
  · exact .pure ⟨a, b, c, rfl, rfl⟩
  · exact extends_refuse _

/-- The truth values of all operands. -/
theorem extends_truths (hg : symbols.Ready g frame) (hes : ∀ e ∈ es, e.Sound types symbols) :
    Extends symbols g ((es.map (Expr.lower ⟨types, symbols⟩)).mapM (·.truth frame))
      fun (w : Word) g' => w.Means symbols g' fun trace =>
        (es.map (Expr.meaning types trace)).map (·.truth frame) := by
  induction es generalizing g with
  | nil => exact .pure Word.means_nil
  | cons e es ih =>
    obtain ⟨he, hes⟩ := List.forall_mem_cons.1 hes
    rw [List.map_cons, List.mapM_cons]
    refine (he.truth g frame hg).bind fun l g₁ h₁ hl => ?_
    refine (ih (hg.mono h₁) hes).bind fun w g₂ h₂ hw => .pure ?_
    exact Word.Means.cons (hl.mono h₂) hw

/-- The words of all operands, in a row. -/
theorem extends_words (hg : symbols.Ready g frame) (hes : ∀ e ∈ es, e.Sound types symbols) :
    Extends symbols g ((es.map (Expr.lower ⟨types, symbols⟩)).mapM (·.word frame))
      fun ws g' => Word.Means symbols g' ws.flatten fun trace =>
        ((es.map (Expr.meaning types trace)).map (·.bits frame)).flatten := by
  induction es generalizing g with
  | nil => exact .pure Word.means_nil
  | cons e es ih =>
    obtain ⟨he, hes⟩ := List.forall_mem_cons.1 hes
    rw [List.map_cons, List.mapM_cons]
    refine (he.word g frame hg).bind fun w g₁ h₁ hw => ?_
    refine (ih (hg.mono h₁) hes).bind fun ws g₂ h₂ hws => .pure ⟨?_, fun v trace hv => ?_⟩
    · exact Word.within_append.2 ⟨(hw.mono h₂).within, hws.within⟩
    · rw [List.flatten_cons, Word.bits_append, (hw.mono h₂).bits_eq v trace hv,
        hws.bits_eq v trace hv]
      rfl

/-- The words of two operands of one width. -/
theorem extends_wordPair (hg : symbols.Ready g frame) (hes : ∀ e ∈ es, e.Sound types symbols)
    (kind : Kind) :
    Extends symbols g (wordPair kind (es.map (Expr.lower ⟨types, symbols⟩)) frame) fun p g' =>
      ∃ a b, es = [a, b] ∧
        (p.1.Means symbols g' fun trace => a.bitsAt types trace frame) ∧
        p.2.Means symbols g' fun trace => b.bitsAt types trace frame := by
  refine (extends_two kind _).bind fun p g₁ h₁ ⟨a, b, hab, hp⟩ => ?_
  subst hab hp
  obtain ⟨ha, hes⟩ := List.forall_mem_cons.1 hes
  obtain ⟨hb, -⟩ := List.forall_mem_cons.1 hes
  refine (ha.word g₁ frame (hg.mono h₁)).bind fun x g₂ h₂ hx => ?_
  refine (hb.word g₂ frame ((hg.mono h₁).mono h₂)).bind fun y g₃ h₃ hy => ?_
  refine (extends_sameWidth x.length y.length).bind fun _ g₄ h₄ _ => .pure ?_
  exact ⟨a, b, rfl, hx.mono (h₃.trans h₄), hy.mono h₄⟩

/-- A gate on the truth values of two operands. -/
theorem extends_truthPair (hg : symbols.Ready g frame) {a b : Expr} (ha : a.Sound types symbols)
    (hb : b.Sound types symbols) {f : Literal → Literal → Build Literal}
    {t : Bool → Bool → Bool} (hf : Circuit.Computes f t) :
    Extends symbols g (do
        let x ← a.toLiteral ⟨types, symbols⟩ frame
        let y ← b.toLiteral ⟨types, symbols⟩ frame
        build (f x y)) fun l g' => l.Means symbols g' fun trace =>
      t (a.truthAt types trace frame) (b.truthAt types trace frame) := by
  refine (ha.truth g frame hg).bind fun x g₁ h₁ hx => ?_
  refine (hb.truth g₁ frame (hg.mono h₁)).bind fun y g₂ h₂ hy => ?_
  have hx := hx.mono h₂
  refine extends_build (hf g₂.net x y hx.lt hy.lt)
    fun l g' h hl => ⟨hl.lt, fun v trace hv => ?_⟩
  rw [hl.eval_eq v hv.holds, (hx.mono h).eval_eq v trace hv, (hy.mono h).eval_eq v trace hv]

/-! ## Operators on timeframes -/

/-- An offset is the number of the expression that stands for it. -/
theorem index_of_delayOffset? {e : Expr} {k : Nat} (h : e.delayOffset? = some k) :
    (e.toInteger?.getD 0).toNat = k := by
  unfold Expr.delayOffset? at h
  split at h
  · rename_i n hn
    split at h
    · rw [hn, ← Option.some.inj h]
      rfl
    · cases h
  · cases h

theorem extends_delays (hg : symbols.Ready g frame) (hsteps : symbols.multiStep = true)
    {body : Expr} (hbody : body.Sound types symbols) (offset count : Nat) :
    Extends symbols g (delays (body.lower ⟨types, symbols⟩) frame offset count)
      fun (w : Word) g' => w.Means symbols g' fun trace => (List.range' offset count).map fun k =>
        body.truthAt types trace (frame.later k) := by
  induction count generalizing offset g with
  | zero => exact .pure Word.means_nil
  | succ count ih =>
    refine (extends_shift frame offset).bind fun f g₁ h₁ hf => ?_
    subst hf
    have hg := hg.mono h₁
    refine (hbody.truth g₁ _ (hg.later hsteps offset)).bind fun l g₂ h₂ hl => ?_
    refine (ih (hg.mono h₂) (offset + 1)).bind fun w g₃ h₃ hw => .pure ?_
    exact Word.Means.cons (hl.mono h₃) hw

theorem extends_delay (hg : symbols.Ready g frame) (hsteps : symbols.multiStep = true)
    (first last : Expr) {body : Expr} (hbody : body.Sound types symbols) :
    Extends symbols g (delay (first.lower ⟨types, symbols⟩) (last.lower ⟨types, symbols⟩)
      (body.lower ⟨types, symbols⟩) frame) fun l g' => l.Means symbols g' fun trace =>
        Meaning.delay (first.meaning types trace) (last.meaning types trace)
          (body.meaning types trace) frame := by
  unfold delay Meaning.delay Meaning.index
  simp only [Expr.expr_lower, Expr.expr_meaning]
  split
  · split
    · exact extends_refuse _
    · rename_i offset hoffset
      rw [index_of_delayOffset? hoffset]
      refine (extends_shift frame offset).bind fun f g₁ h₁ hf => ?_
      subst hf
      exact hbody.truth g₁ _ ((hg.mono h₁).later hsteps offset)
  · split
    · rename_i lower upper hlower hupper
      rw [index_of_delayOffset? hlower, index_of_delayOffset? hupper]
      refine (extends_delays hg hsteps hbody lower (upper - lower)).bind fun w g₁ h₁ hw => ?_
      refine extends_build (Circuit.addsGates_orAll (hg.mono h₁).constant hw.within)
        fun l g' h hl => ⟨hl.lt, fun v trace hv => ?_⟩
      have hbits : w.map (·.eval v) = _ := (hw.mono h).bits_eq v trace hv
      rw [hl.eval_eq v hv.holds, hbits, List.any_map]
      rfl
    · exact extends_refuse _

theorem extends_temporal (hg : symbols.Ready g frame) (hsteps : symbols.multiStep = true)
    (hes : ∀ e ∈ es, e.Sound types symbols) (op : Temporal) :
    Extends symbols g (temporal op (es.map (Expr.lower ⟨types, symbols⟩)) frame)
      fun l g' => l.Means symbols g' fun trace =>
        Meaning.temporal op (es.map (Expr.meaning types trace)) frame := by
  cases op with
  | overlapped | nonOverlapped =>
    rcases es with _ | ⟨a, _ | ⟨b, _ | ⟨c, es⟩⟩⟩
    · exact extends_refuse _
    · exact extends_refuse _
    · exact extends_truthPair hg (hes a (by simp)) (hes b (by simp)) Circuit.computes_implies
    · exact extends_refuse _
  | concat =>
    rcases es with _ | ⟨a, _ | ⟨b, _ | ⟨c, es⟩⟩⟩
    · exact extends_refuse _
    · exact extends_refuse _
    · exact extends_truthPair hg (hes a (by simp)) (hes b (by simp)) Circuit.computes_and
    · exact extends_refuse _
  | delay =>
    rcases es with _ | ⟨a, _ | ⟨b, _ | ⟨c, _ | ⟨d, es⟩⟩⟩⟩
    · exact extends_refuse _
    · exact extends_refuse _
    · exact extends_refuse _
    · exact extends_delay hg hsteps a b (hes c (by simp))
    · exact extends_refuse _

/-! ## Operators on truth values -/

theorem addsGates_connective {net : Netlist} (hnet : net[0]? = some .constant) (op : Connective)
    {w : Word} (hw : w.Within net) : Build.AddsGates net (connective op w) fun l net' =>
      l.Denotes net' fun v => Meaning.connective op (w.bits v) := by
  cases op with
  | and => exact Circuit.addsGates_andAll hnet hw
  | or => exact Circuit.addsGates_orAll hnet hw
  | xor => exact Circuit.addsGates_xorAll hnet hw

theorem extends_equality (hg : symbols.Ready g frame) (hes : ∀ e ∈ es, e.Sound types symbols)
    (kind : Kind) :
    Extends symbols g
      (equality ⟨types, symbols⟩ kind (es.map (Expr.lower ⟨types, symbols⟩)) frame)
      fun l g' => ∃ a b, es = [a, b] ∧ l.Means symbols g' fun trace =>
        Meaning.equality types (a.meaning types trace) (b.meaning types trace) frame := by
  unfold equality
  refine (extends_two kind _).bind fun p g₁ h₁ ⟨a, b, hab, hp⟩ => ?_
  subst hab hp
  have hg := hg.mono h₁
  simp only [Expr.expr_lower]
  split
  · rename_i hbool
    refine (extends_truthPair hg (hes a (by simp)) (hes b (by simp))
      Circuit.computes_iff).imp fun l g' _ hl => ⟨a, b, rfl, hl.lt, fun v trace hv => ?_⟩
    rw [hl.eval_eq v trace hv, Meaning.equality, Expr.expr_meaning, if_pos hbool]
    rfl
  · rename_i hbool
    refine (extends_wordPair hg hes kind).bind fun p g₂ h₂ ⟨a', b', hab, hx, hy⟩ => ?_
    obtain ⟨rfl, rfl⟩ : a = a' ∧ b = b' := by simpa using hab
    refine extends_gated (Word.addsGates_equal (hg.mono h₂).constant hx.within hy.within)
      fun l g' h hl => ⟨a, b, rfl, hl.lt, fun v trace hv => ?_⟩
    rw [hl.eval_eq v hv.holds, (hx.mono h).bits_eq v trace hv, (hy.mono h).bits_eq v trace hv,
      Meaning.equality, Expr.expr_meaning, if_neg hbool]
    rfl

/-- Each order relation is the strict one, exchanged or negated. -/
theorem extends_relation (hnet : g.net[0]? = some .constant) (op : Relation) {a b : Word}
    (ha : a.Within g.net) (hb : b.Within g.net) (signed : Bool) :
    Extends symbols g (relation op a b signed) fun l g' => l.Denotes g'.net fun v =>
      Meaning.relation op ((a.bits v).value signed) ((b.bits v).value signed) := by
  have hless : ∀ {a b : Word}, a.Within g.net → b.Within g.net →
      Extends symbols g (gated (a.lessThan b signed)) fun l g' => l.Denotes g'.net fun v =>
        decide ((a.bits v).value signed < (b.bits v).value signed) := fun ha hb =>
    extends_gated (Word.addsGates_lessThan hnet ha hb signed) fun _ _ _ hl => hl
  cases op with
  | lt => exact hless ha hb
  | gt => exact hless hb ha
  | le =>
    refine (hless hb ha).bind fun l g' _ hl => .pure ⟨hl.lt, fun v hv => ?_⟩
    rw [hl.neg.eval_eq v hv, Meaning.relation, ← decide_not]
    exact decide_eq_decide.2 Int.not_lt
  | ge =>
    refine (hless ha hb).bind fun l g' _ hl => .pure ⟨hl.lt, fun v hv => ?_⟩
    rw [hl.neg.eval_eq v hv, Meaning.relation, ← decide_not]
    exact decide_eq_decide.2 Int.not_lt

/-- One bit of a word, also where only that bit of a variable is read. -/
theorem extends_extractBit (hg : symbols.Ready g frame) (hes : ∀ e ∈ es, e.Sound types symbols) :
    Extends symbols g
      (extractBit ⟨types, symbols⟩ (es.map (Expr.lower ⟨types, symbols⟩)) frame)
      fun l g' => ∃ a i, es = [a, i] ∧ l.Means symbols g' fun trace =>
        (a.bitsAt types trace frame).getD (i.toInteger?.getD 0).toNat false := by
  unfold extractBit
  refine (extends_two .extractBit _).bind fun p g₁ h₁ ⟨a, index, hab, hp⟩ => ?_
  subst hab hp
  have hg := hg.mono h₁
  simp only [Expr.expr_lower]
  refine (extends_constantIndex index .extractBit _).bind fun i g₂ h₂ ⟨hi, hlt⟩ => ?_
  have hg := hg.mono h₂
  subst hi
  split
  · rename_i name hkind
    refine (extends_bit hg .current name _).imp
      fun l g' _ hl => ⟨a, index, rfl, hl.lt, fun v trace hv => ?_⟩
    rw [hl.eval_eq v trace hv, Expr.bitsAt_of_symbol hkind]
    simp [hlt, Phase.timeframe]
  · refine ((hes a (by simp)).word g₂ frame hg).bind fun w g₃ h₃ hw => ?_
    refine (extends_sameWidth _ w.length).bind fun _ g₄ h₄ hlength => ?_
    refine (extends_bitOf w _).imp fun l g₅ h₅ hl => ?_
    have hw := hw.mono (h₄.trans h₅)
    refine ⟨a, index, rfl, hw.within l (List.mem_of_getElem? hl), fun v trace hv => ?_⟩
    rw [← hw.bits_eq v trace hv, Word.bits, List.getD_eq_getElem?_getD, List.getElem?_map, hl]
    rfl

/-- A node whose kind gives a literal by nature. -/
theorem extends_logical (hg : symbols.Ready g frame) (hes : ∀ e ∈ es, e.Sound types symbols)
    (kind : Kind) :
    Extends symbols g
      (logical ⟨types, symbols⟩ kind (es.map (Expr.lower ⟨types, symbols⟩)) frame)
      fun l g' => l.Means symbols g' fun trace =>
        Meaning.logical types kind (es.map (Expr.meaning types trace)) frame := by
  cases kind with
  | truth value => exact .pure (Literal.denotes_ofBool hg.constant value).means
  | not =>
    refine (extends_one .not _).bind fun a g₁ h₁ ⟨e, he, ha⟩ => ?_
    subst he ha
    refine ((hes e (by simp)).truth g₁ frame (hg.mono h₁)).bind
      fun l g₂ h₂ hl => .pure hl.neg
  | connective op =>
    refine (extends_truths hg hes).bind fun w g₁ h₁ hw => ?_
    refine extends_build (addsGates_connective (hg.mono h₁).constant op hw.within)
      fun l g' h hl => ⟨hl.lt, fun v trace hv => ?_⟩
    rw [hl.eval_eq v hv.holds, (hw.mono h).bits_eq v trace hv]
    rfl
  | implies =>
    refine (extends_two .implies _).bind fun p g₁ h₁ ⟨a, b, hab, hp⟩ => ?_
    subst hab hp
    exact extends_truthPair (hg.mono h₁) (hes a (by simp)) (hes b (by simp))
      Circuit.computes_implies
  | equality negated =>
    refine (extends_equality hg hes _).bind fun l g₁ h₁ ⟨a, b, hab, hl⟩ => .pure ?_
    subst hab
    cases negated with
    | false => exact ⟨hl.lt, fun v trace hv => by simp [Meaning.logical, hl.eval_eq v trace hv]⟩
    | true => exact ⟨hl.lt, fun v trace hv => by simp [Meaning.logical, hl.eval_eq v trace hv]⟩
  | ite =>
    refine (extends_three .ite _).bind fun p g₁ h₁ ⟨c, a, b, habc, hp⟩ => ?_
    subst habc hp
    have hg₁ := hg.mono h₁
    refine ((hes c (by simp)).truth g₁ frame hg₁).bind fun z g₂ h₂ hz => ?_
    have hg₂ := hg₁.mono h₂
    refine ((hes a (by simp)).truth g₂ frame hg₂).bind fun x g₃ h₃ hx => ?_
    have hg₃ := hg₂.mono h₃
    refine ((hes b (by simp)).truth g₃ frame hg₃).bind fun y g₄ h₄ hy => ?_
    have hz := hz.mono (h₃.trans h₄)
    have hx := hx.mono h₄
    refine extends_build (Circuit.addsGates_select hz.lt hx.lt hy.lt)
      fun l g' h hl => ⟨hl.lt, fun v trace hv => ?_⟩
    rw [hl.eval_eq v hv.holds, (hz.mono h).eval_eq v trace hv, (hx.mono h).eval_eq v trace hv,
      (hy.mono h).eval_eq v trace hv]
    rfl
  | relation op =>
    refine (extends_wordPair hg hes _).bind fun p g₁ h₁ ⟨a, b, hab, hx, hy⟩ => ?_
    subst hab
    refine (extends_relation (hg.mono h₁).constant op hx.within hy.within _).imp
      fun l g' h hl => ⟨hl.lt, fun v trace hv => ?_⟩
    rw [hl.eval_eq v hv.holds, (hx.mono h).bits_eq v trace hv, (hy.mono h).bits_eq v trace hv]
    simp [Meaning.logical, Expr.bitsAt]
  | extractBit =>
    refine (extends_extractBit hg hes).imp fun l g' _ ⟨a, i, hab, hl⟩ =>
      ⟨hl.lt, fun v trace hv => ?_⟩
    subst hab
    rw [hl.eval_eq v trace hv]
    simp [Meaning.logical, Meaning.index, Expr.bitsAt]
  | temporal op =>
    show Extends symbols g (if symbols.multiStep then _ else _) _
    split
    · exact extends_temporal hg ‹_› hes op
    · exact extends_refuse _
  | symbol | nextSymbol | constant | nil | complement | negate | binary | extractBits | concat
  | cast => exact extends_refuse _

/-! ## Operators on words -/

theorem addsGates_wordOp {net : Netlist} (hnet : net[0]? = some .constant) (op : WordOp)
    {a b : Word} (ha : a.Within net) (hb : b.Within net) :
    Word.Gated.AddsGates net (wordOp op a b) fun w net' => w.Denotes net' fun v =>
      Meaning.binary op (a.bits v) (b.bits v) := by
  have hlength : ∀ v, (a.bits v).length = a.length := fun v => Word.length_bits a v
  cases op with
  | and => exact Word.addsGates_bitwise Circuit.computes_and ha hb
  | or => exact Word.addsGates_bitwise Circuit.computes_or ha hb
  | xor => exact Word.addsGates_bitwise Circuit.computes_xor ha hb
  | add =>
    refine (Word.addsGates_add (Literal.denotes_bottom hnet).lt ha hb).imp
      fun w net' h hw => ⟨hw.within, fun v hv => ?_⟩
    have hone : v 0 = true := hv 0 _ (Netlist.getElem?_of_isPrefix h hnet)
    rw [hw.bits_eq v hv, Meaning.binary, hlength]
    simp [Literal.eval_bottom hone, Word.toNat]
  | sub =>
    refine (Word.addsGates_sub hnet ha hb).imp fun w net' _ hw => ⟨hw.within, fun v hv => ?_⟩
    rw [hw.bits_eq v hv, Meaning.binary, hlength]
    rfl
  | mul =>
    refine (Word.addsGates_mul hnet ha hb).imp fun w net' _ hw => ⟨hw.within, fun v hv => ?_⟩
    rw [hw.bits_eq v hv, Meaning.binary, hlength]
    rfl

theorem extends_extractBits (hg : symbols.Ready g frame) (hes : ∀ e ∈ es, e.Sound types symbols)
    (width : Nat) :
    Extends symbols g (extractBits width (es.map (Expr.lower ⟨types, symbols⟩)) frame)
      fun w g' => ∃ a last first, es = [a, last, first] ∧ w.Means symbols g' fun trace =>
        ((a.bitsAt types trace frame).drop (first.toInteger?.getD 0).toNat).take
          ((last.toInteger?.getD 0).toNat + 1 - (first.toInteger?.getD 0).toNat) := by
  unfold extractBits
  refine (extends_three .extractBits _).bind fun p g₁ h₁ ⟨a, last, first, hab, hp⟩ => ?_
  subst hab hp
  simp only [Expr.expr_lower]
  refine ((hes a (by simp)).word g₁ frame (hg.mono h₁)).bind fun w g₂ h₂ hw => ?_
  refine (extends_constantIndex last _ _).bind fun upper g₃ h₃ ⟨hupper, _⟩ => ?_
  refine (extends_constantIndex first _ _).bind fun lower g₄ h₄ ⟨hlower, _⟩ => ?_
  subst hupper hlower
  split
  · exact extends_refuse _
  · refine (extends_sameWidth _ _).bind fun _ g₅ h₅ _ => ?_
    refine (extends_slice w _ _).imp fun part g₆ h₆ hpart => ?_
    subst hpart
    have hw := hw.mono (h₃.trans (h₄.trans (h₅.trans h₆)))
    refine ⟨a, last, first, rfl, Word.within_slice hw.within _ _, fun v trace hv => ?_⟩
    rw [Word.bits_slice, hw.bits_eq v trace hv]

/-- The choice between two words. -/
theorem extends_choice (hg : symbols.Ready g frame) (hes : ∀ e ∈ es, e.Sound types symbols)
    (kind : Kind) :
    Extends symbols g (do
        let (c, a, b) ← three kind (es.map (Expr.lower ⟨types, symbols⟩))
        let z ← c.truth frame
        let x ← a.word frame
        let y ← b.word frame
        sameWidth x.length y.length
        gated (Word.mux z x y)) fun w g' => ∃ c a b, es = [c, a, b] ∧
      w.Means symbols g' fun trace => if c.truthAt types trace frame
        then a.bitsAt types trace frame else b.bitsAt types trace frame := by
  refine (extends_three kind _).bind fun p g₁ h₁ ⟨c, a, b, habc, hp⟩ => ?_
  subst habc hp
  have hg₁ := hg.mono h₁
  refine ((hes c (by simp)).truth g₁ frame hg₁).bind fun z g₂ h₂ hz => ?_
  have hg₂ := hg₁.mono h₂
  refine ((hes a (by simp)).word g₂ frame hg₂).bind fun x g₃ h₃ hx => ?_
  have hg₃ := hg₂.mono h₃
  refine ((hes b (by simp)).word g₃ frame hg₃).bind fun y g₄ h₄ hy => ?_
  refine (extends_sameWidth x.length y.length).bind fun _ g₅ h₅ _ => ?_
  have hz := hz.mono (h₃.trans (h₄.trans h₅))
  have hx := hx.mono (h₄.trans h₅)
  have hy := hy.mono h₅
  refine extends_gated (Word.addsGates_mux hz.lt hx.within hy.within)
    fun w g' h hw => ⟨c, a, b, rfl, hw.within, fun v trace hv => ?_⟩
  rw [hw.bits_eq v hv.holds, (hz.mono h).eval_eq v trace hv, (hx.mono h).bits_eq v trace hv,
    (hy.mono h).bits_eq v trace hv]

/-- A node whose kind gives a word by nature, or a conditional. -/
theorem extends_wordy (hg : symbols.Ready g frame) (hes : ∀ e ∈ es, e.Sound types symbols)
    (kind : Kind) (ty : Ty) :
    Extends symbols g (wordy ⟨types, symbols⟩ (.node kind ty es)
        (es.map (Expr.lower ⟨types, symbols⟩)) frame)
      fun w g' => w.Means symbols g' fun trace => Meaning.wordy types trace (.node kind ty es)
        (es.map (Expr.meaning types trace)) frame := by
  cases kind with
  | symbol name =>
    show Extends symbols g (if _ then _ else _) _
    split
    · exact extends_refuse _
    · exact extends_word hg .current name _
  | nextSymbol name =>
    show Extends symbols g (if _ then _ else _) _
    split
    · exact extends_refuse _
    · exact extends_word hg .next name _
  | constant n =>
    show Extends symbols g (if _ then _ else _) _
    split
    · exact extends_refuse _
    · exact .pure (Word.denotes_ofInt hg.constant _ n).means
  | complement =>
    refine (extends_one .complement _).bind fun a g₁ h₁ hone => ?_
    obtain ⟨e, rfl, rfl⟩ := hone
    refine ((hes e (by simp)).word g₁ frame (hg.mono h₁)).bind fun w g₂ h₂ hw => .pure ?_
    refine ⟨Word.within_complement.2 hw.within, fun v trace hv => ?_⟩
    rw [Word.bits_complement, hw.bits_eq v trace hv]
    rfl
  | negate =>
    refine (extends_one .negate _).bind fun a g₁ h₁ hone => ?_
    obtain ⟨e, rfl, rfl⟩ := hone
    refine ((hes e (by simp)).word g₁ frame (hg.mono h₁)).bind fun w g₂ h₂ hw => ?_
    refine extends_gated (Word.addsGates_negate ((hg.mono h₁).mono h₂).constant hw.within)
      fun u g' h hu => ⟨hu.within, fun v trace hv => ?_⟩
    rw [hu.bits_eq v hv.holds, Word.toNat, ← Word.length_bits w v,
      (hw.mono h).bits_eq v trace hv]
    rfl
  | binary op =>
    refine (extends_wordPair hg hes _).bind fun p g₁ h₁ hpair => ?_
    obtain ⟨a, b, rfl, hx, hy⟩ := hpair
    refine (extends_sameWidth _ p.1.length).bind fun _ g₂ h₂ _ => ?_
    have hx := hx.mono h₂
    have hy := hy.mono h₂
    refine extends_gated
      (addsGates_wordOp ((hg.mono h₁).mono h₂).constant op hx.within hy.within)
      fun w g' h hw => ⟨hw.within, fun v trace hv => ?_⟩
    rw [hw.bits_eq v hv.holds, (hx.mono h).bits_eq v trace hv, (hy.mono h).bits_eq v trace hv]
    rfl
  | ite =>
    refine (extends_choice hg hes .ite).imp fun w g' _ hchoice => ?_
    obtain ⟨c, a, b, rfl, hw⟩ := hchoice
    exact hw
  | extractBits =>
    refine (extends_extractBits hg hes _).imp fun w g' _ hpart => ?_
    obtain ⟨a, last, first, rfl, hw⟩ := hpart
    refine ⟨hw.within, fun v trace hv => ?_⟩
    rw [hw.bits_eq v trace hv]
    simp [Meaning.wordy, Meaning.index, Expr.bitsAt]
  | concat =>
    have hreverse : ∀ e ∈ es.reverse, e.Sound types symbols := fun e he =>
      hes e (List.mem_reverse.1 he)
    show Extends symbols g ((es.map _).reverse.mapM _ >>= _) _
    rw [← List.map_reverse]
    refine (extends_words hg hreverse).bind fun ws g₁ h₁ hw => ?_
    refine (extends_sameWidth _ _).bind fun _ g₂ h₂ _ => .pure ?_
    refine ⟨(hw.mono h₂).within, fun v trace hv => ?_⟩
    rw [(hw.mono h₂).bits_eq v trace hv, List.map_reverse]
    rfl
  | cast =>
    refine (extends_one .cast _).bind fun a g₁ h₁ hone => ?_
    obtain ⟨e, rfl, rfl⟩ := hone
    refine ((hes e (by simp)).word g₁ frame (hg.mono h₁)).bind fun w g₂ h₂ hw => ?_
    have hg := (hg.mono h₁).mono h₂
    show Extends symbols g₂ (if _ then _ else _) _
    split
    · exact extends_refuse _
    · refine .pure ⟨Word.within_resize hg.constant hw.within _ _, fun v trace hv => ?_⟩
      rw [Word.bits_resize (hv.holds 0 _ hg.constant), hw.bits_eq v trace hv]
      simp [Meaning.wordy, Expr.bitsAt]
  | truth | nil | not | connective | implies | equality | relation | extractBit
  | temporal => exact extends_refuse _

/-! ## Nodes -/

/-- The truth value of a word by nature is its only bit. -/
theorem extends_ofWord (hg : symbols.Ready g frame) (hes : ∀ e ∈ es, e.Sound types symbols)
    (kind : Kind) (ty : Ty) :
    Extends symbols g (truthOf.ofWord ⟨types, symbols⟩ (.node kind ty es)
        (es.map (Expr.lower ⟨types, symbols⟩)) frame)
      fun l g' => l.Means symbols g' fun trace =>
        Meaning.wordy types trace (.node kind ty es)
          (es.map (Expr.meaning types trace)) frame == [true] := by
  unfold truthOf.ofWord
  split
  · refine (extends_wordy hg hes kind ty).bind fun w g₁ h₁ hw => ?_
    refine (extends_oneBit w).imp fun l g' h hl => ?_
    subst hl
    refine ⟨(hw.mono h).within l List.mem_cons_self, fun v trace hv => ?_⟩
    rw [← (hw.mono h).bits_eq v trace hv, Word.bits_cons, Word.bits_nil]
    simp
  · exact extends_refuse _

theorem extends_truthOf (hg : symbols.Ready g frame) (hes : ∀ e ∈ es, e.Sound types symbols)
    (kind : Kind) (ty : Ty) :
    Extends symbols g (truthOf ⟨types, symbols⟩ (.node kind ty es)
        (es.map (Expr.lower ⟨types, symbols⟩)) frame)
      fun l g' => l.Means symbols g' fun trace =>
        Meaning.truthOf types trace (.node kind ty es)
          (es.map (Expr.meaning types trace)) frame := by
  have hword := extends_ofWord hg hes kind ty
  have hlogical := extends_logical hg hes kind
  cases kind with
  | constant n =>
    by_cases hbool : types.isBool ty = true
    · simp only [truthOf, Meaning.truthOf, Expr.kind_node, Expr.ty_node, hbool, if_true]
      exact .pure (Literal.denotes_ofBool hg.constant _).means
    · simp only [truthOf, Meaning.truthOf, Expr.kind_node, Expr.ty_node, hbool]
      exact hword
  | symbol | nextSymbol | complement | negate | binary | extractBits | concat | cast =>
    exact hword
  | truth | nil | not | connective | implies | equality | ite | relation | extractBit
  | temporal => exact hlogical

theorem extends_wordOf (hg : symbols.Ready g frame) (hes : ∀ e ∈ es, e.Sound types symbols)
    (kind : Kind) (ty : Ty) :
    Extends symbols g (wordOf ⟨types, symbols⟩ (.node kind ty es)
        (es.map (Expr.lower ⟨types, symbols⟩)) frame)
      fun w g' => w.Means symbols g' fun trace =>
        Meaning.bitsOf types trace (.node kind ty es)
          (es.map (Expr.meaning types trace)) frame := by
  simp only [wordOf, Meaning.bitsOf, Expr.kind_node, Expr.ty_node]
  by_cases hword : (kind.isWord || (kind == .ite && !types.isBool ty)) = true
  · simp only [hword, if_true]
    exact extends_wordy hg hes kind ty
  · simp only [hword]
    by_cases hbool : types.isBool ty = true
    · simp only [hbool, if_true]
      refine (extends_logical hg hes kind).bind fun l g₁ h₁ hl => .pure ?_
      exact Word.Means.cons hl Word.means_nil
    · simp only [hbool]
      exact extends_refuse _

end Lower

/-- The literal and the word of every expression mean its truth value and its bits. -/
theorem Expr.sound (types : TypeTable) (symbols : Symbols) (e : Expr) : e.Sound types symbols := by
  induction e using Expr.induction with
  | node kind ty es ih =>
    constructor
    · intro g frame hg
      have h := Lower.extends_truthOf hg ih kind ty
      simp only [← lowerAll_eq_map, ← meanings_eq_map] at h
      exact h
    · intro g frame hg
      have h := Lower.extends_wordOf hg ih kind ty
      simp only [← lowerAll_eq_map, ← meanings_eq_map] at h
      exact h

/-! ## With a resolver -/

/-- A netlist with the constant and the literals of a resolver. -/
structure Resolver.Ready (net : Netlist) (r : Resolver) : Prop where
  constant : net[0]? = some .constant
  within : r.Within net

theorem Resolver.Ready.mono {net net' : Netlist} {r : Resolver} (hr : r.Ready net)
    (h : net <+: net') : r.Ready net' :=
  ⟨Netlist.getElem?_of_isPrefix h hr.constant, hr.within.mono h⟩

/-- An expression's literal and word stand for its truth value and its bits over the trace of the
resolver's literals. -/
structure Expr.Faithful (types : TypeTable) (r : Resolver) (rest : Trace) (e : Expr) : Prop where
  truth : ∀ net frame, r.Ready net → Lower.AddsGates net (e.toLiteral ⟨types, .mapped r⟩ frame)
    fun l net' => l.Denotes net' fun v => e.truthAt types (r.trace rest v) frame
  word : ∀ net frame, r.Ready net → Lower.AddsGates net (e.toWord ⟨types, .mapped r⟩ frame)
    fun w net' => w.Denotes net' fun v => e.bitsAt types (r.trace rest v) frame

namespace Expr

/-- The literal and the word of every expression stand for its truth value and its bits over the
trace of the resolver's literals. -/
theorem faithful (types : TypeTable) (r : Resolver) (rest : Trace) (e : Expr) :
    e.Faithful types r rest := by
  have hready : ∀ {g : Stage} {net : Netlist} (frame : Frame), r.Ready net → g.net = net →
      (Symbols.mapped r).Ready g frame := fun _ hr hnet => ⟨hnet ▸ hr.constant, nofun⟩
  constructor
  · intro net frame hr
    refine Resolver.addsGates_of_extends hr.within fun g hg =>
      ((e.sound types (.mapped r)).truth g frame (hready frame hr hg)).imp fun l g' _ hl => ?_
    exact ⟨hl.lt, fun v hv => hl.eval_eq v _ (r.shows_trace rest hv)⟩
  · intro net frame hr
    refine Resolver.addsGates_of_extends hr.within fun g hg =>
      ((e.sound types (.mapped r)).word g frame (hready frame hr hg)).imp fun w g' _ hw => ?_
    exact ⟨hw.within, fun v hv => hw.bits_eq v _ (r.shows_trace rest hv)⟩

/-- What unrolled variables answer as a resolver, they have as a map. -/
theorem get?_of_resolve {map : Unrolled} {t : Nat} {name : String} {bit : Nat} {l : Literal}
    (h : map.resolver.resolve name bit t = .ok l) : map.get? t name bit = some l := by
  simp only [Unrolled.resolver, Unrolled.get] at h
  split at h
  · rename_i l' hl'
    rw [hl', Except.ok.inj h]
  · cases h

/-- The literals of unrolled variables, as a resolver, have variables of a netlist if they have as
a map. -/
theorem ready_resolver {net : Netlist} (hnet : net[0]? = some .constant) {map : Unrolled}
    (hmap : ∀ t name bit l, map.get? t name bit = some l → l.var < net.length) :
    map.resolver.Ready net :=
  ⟨hnet, fun name bit t l hl => hmap t name bit l (get?_of_resolve hl)⟩

/-- The trace of unrolled variables is any trace that has the values of their literals. -/
theorem trace_resolver {map : Unrolled} {v : Valuation} {trace : Trace}
    (h : ∀ t name bit l, map.get? t name bit = some l → l.eval v = trace name bit t) :
    map.resolver.trace trace v = trace :=
  Resolver.trace_eq fun name bit t l hl => h t name bit l (get?_of_resolve hl)

end Expr

end BitUnroll
