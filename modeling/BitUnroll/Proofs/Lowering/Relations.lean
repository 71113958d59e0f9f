import BitUnroll.Proofs.Lowering.Assertion
import BitUnroll.Proofs.Lowering.Shape
import BitUnroll.Proofs.Lowering.Values

/-!
# Relations the other way round

An order relation of two words reads both of them with the sign that the type of its first operand
has. So `a > b` goes by the type of `a`, and `b < a` by the type of `b`. Where the two types have
one sign, the relation is the other one with its operands turned round, or its negation; where they
do not, it is so exactly in those models in which both words have the same sign bit.

Whether a relation can be lowered is no matter of the circuit or of the order of its operands: both
words must be there and have one length.

## Main definitions

* `Relation.turned`: the relation of the operands the other way round.
* `Expr.SameSign`: two expressions are read alike with the sign of either type.
* `Lower.Succeeds`: a computation has a result from every state.

## Main statements

* `Meaning.relation_value_eq_iff`: relations of bits that are read with different signs.
* `Expr.exists_turned`: a relation is lowered after the one that it turns round.
* `Expr.turned_iff_sameSign`: the values of relations that are turned round.
* `Expr.exists_turned_ne`: two numbers of one bit.
-/

namespace BitUnroll

/-! ## Relations of numbers -/

/-- The relation of two numbers the other way round, and whether it is negated: `x > y` is `y < x`,
`x ≥ y` is `y ≤ x`, `x ≤ y` is not `y < x`, and `x < y` is not `y ≤ x`. -/
def Relation.turned : Relation → Relation × Bool
  | .gt => (.lt, false)
  | .ge => (.le, false)
  | .le => (.lt, true)
  | .lt => (.le, true)

namespace Meaning

theorem relation_turned (op : Relation) (x y : Int) :
    relation op x y = (op.turned.2 ^^ relation op.turned.1 y x) := by
  cases op <;> simp only [relation, Relation.turned, Bool.true_xor, Bool.false_xor, ← decide_not,
    Int.not_lt, Int.not_le]

/-- Bits are in a relation with one sign where they are with the other one, exactly if the sign
bits are the same. -/
theorem relation_value_eq_iff {a b : Bits} (h : a.length = b.length) (op : Relation)
    (signed signed' : Bool) :
    relation op (a.value signed) (b.value signed) =
        relation op (a.value signed') (b.value signed') ↔
      signed = signed' ∨ a.getLastD false = b.getLastD false := by
  have hless := Bits.value_lt_eq_iff h signed signed'
  have hgreater := Bits.value_lt_eq_iff h.symm signed signed'
  rw [@eq_comm _ (b.getLastD false)] at hgreater
  cases op with
  | lt => exact hless
  | gt => exact hgreater
  | le => simpa only [relation, ← Int.not_lt, decide_not, Bool.not_inj_iff] using hgreater
  | ge => simpa only [relation, ← Int.not_lt, decide_not, Bool.not_inj_iff] using hless

end Meaning

/-! ## Computations that succeed -/

namespace Lower

variable {α β : Type} {post : α → Prop}

/-- Whatever state a computation starts in, it succeeds, and its result has a property. -/
def Succeeds (x : Lower α) (post : α → Prop) : Prop :=
  ∀ s, ∃ a s', x.run s = (.ok a, s') ∧ post a

theorem Succeeds.pure {a : α} (h : post a) : Succeeds (Pure.pure a) post := fun s => ⟨a, s, rfl, h⟩

theorem Succeeds.bind {x : Lower α} {f : α → Lower β} {mid : α → Prop} {post : β → Prop}
    (hx : Succeeds x mid) (hf : ∀ a, mid a → Succeeds (f a) post) : Succeeds (x >>= f) post := by
  intro s
  obtain ⟨a, t, ha, hmid⟩ := hx s
  obtain ⟨b, u, hb, hpost⟩ := hf a hmid t
  refine ⟨b, u, ?_, hpost⟩
  rw [run_bind, ha]
  exact hb

/-- An operation on words that the lengths do not stop. -/
theorem succeeds_gated {x : Word.Gated α} (h : x.Gives post) : Succeeds (gated x) post := by
  have hbuild : Succeeds (build x.run) fun r => ∃ a, r = .ok a ∧ post a :=
    fun s => ⟨_, _, rfl, h s.circuit⟩
  refine hbuild.bind fun r hr => ?_
  obtain ⟨a, rfl, ha⟩ := hr
  exact .pure ha

theorem succeeds_relation (op : Relation) {a b : Word} (h : a.length = b.length) (signed : Bool) :
    Succeeds (relation op a b signed) fun _ => True := by
  have hless := succeeds_gated (Word.gives_lessThan h signed)
  have hgreater := succeeds_gated (Word.gives_lessThan h.symm signed)
  cases op with
  | lt => exact hless
  | gt => exact hgreater
  | le => exact hgreater.bind fun _ _ => .pure trivial
  | ge => exact hless.bind fun _ _ => .pure trivial

end Lower

namespace Expr

variable {types : TypeTable} {r : Resolver} {frame : Frame} {a b e : Expr} {s s' : Lowering}
  {op : Relation} {ty : Ty} {l : Literal}

/-! ## Lowering relations -/

/-- An expression that has a word has one of that length from every state. -/
theorem succeeds_toWord {w : Word}
    (hrun : (e.toWord ⟨types, .mapped r⟩ frame).run s = (.ok w, s')) :
    Lower.Succeeds (e.toWord ⟨types, .mapped r⟩ frame) fun u => u.length = w.length := by
  have hcompares := e.compares r.alike_twice types (.inl (Sources.shifts_of_eq rfl rfl))
  have htwice : r.twice.Lowers .unrelated () (e.toWord ⟨types, .mapped r⟩ frame)
      (e.toWord ⟨types, .mapped r⟩ frame) Comparison.unrelated.words :=
    hcompares.word () frame frame rfl
  intro t
  have h := htwice s t trivial
  rw [hrun] at h
  obtain ⟨_, he, -⟩ | ⟨_, -, -, hagree⟩ := h
  · cases he
  rcases ht : ((e.toWord ⟨types, .mapped r⟩ frame).run t : Except Fault Word × Lowering)
    with ⟨result, t'⟩
  rw [ht] at hagree
  cases hagree with
  | ok hwords => exact ⟨_, t', rfl, hwords.length_eq.symm⟩

/-- A relation that has a literal has two words of one length. -/
theorem words_of_relation
    (hrun : ((node (.relation op) ty [a, b]).toLiteral ⟨types, .mapped r⟩ frame).run s =
      (.ok l, s')) :
    ∃ x y t t', (a.toWord ⟨types, .mapped r⟩ frame).run s = (.ok x, t) ∧
      (b.toWord ⟨types, .mapped r⟩ frame).run t = (.ok y, t') ∧ x.length = y.length := by
  obtain ⟨p, u, hpair, -⟩ := run_bind_ok hrun
  -- the operands are the two given ones
  obtain ⟨q, u', htwo, hpair⟩ := run_bind_ok hpair
  cases htwo
  obtain ⟨x, t, hx, hpair⟩ := run_bind_ok hpair
  obtain ⟨y, t', hy, hpair⟩ := run_bind_ok hpair
  obtain ⟨z, t'', hsame, -⟩ := run_bind_ok hpair
  have hlength := (Lower.delivers_sameWidth _ _).result t' z (congrArg Prod.fst hsame)
  exact ⟨x, y, t, t', hx, hy, hlength⟩

/-- Two words of one length are enough for a relation. -/
theorem succeeds_relation (op : Relation) (ty : Ty) {n : Nat}
    (ha : Lower.Succeeds (a.toWord ⟨types, .mapped r⟩ frame) fun x => x.length = n)
    (hb : Lower.Succeeds (b.toWord ⟨types, .mapped r⟩ frame) fun y => y.length = n) :
    Lower.Succeeds ((node (.relation op) ty [a, b]).toLiteral ⟨types, .mapped r⟩ frame)
      fun _ => True := by
  have hpair : Lower.Succeeds (Lower.wordPair (.relation op)
      [a.lower ⟨types, .mapped r⟩, b.lower ⟨types, .mapped r⟩] frame)
      fun p => p.1.length = p.2.length := by
    refine ha.bind fun x hx => hb.bind fun y hy => ?_
    have hlength : x.length = y.length := hx.trans hy.symm
    rw [Lower.sameWidth, if_pos hlength]
    exact .pure hlength
  exact hpair.bind fun p hp => Lower.succeeds_relation op hp _

theorem truthAt_relation (op : Relation) (ty : Ty) (a b : Expr) (trace : Trace) :
    (node (.relation op) ty [a, b]).truthAt types trace frame =
      Meaning.relation op ((a.bitsAt types trace frame).value (types.isSigned a.ty))
        ((b.bitsAt types trace frame).value (types.isSigned a.ty)) := by
  show Meaning.logical types (.relation op) [a.meaning types trace, b.meaning types trace] frame = _
  rw [Meaning.logical, expr_meaning]
  rfl

/-- A relation that is lowered may be followed by any other one of its operands the other way round.
In every model both have their truth values, of bits of one length. -/
theorem exists_turned (hs : s.circuit.Explained)
    (hrun : ((node (.relation op) ty [a, b]).toLiteral ⟨types, .mapped r⟩ frame).run s =
      (.ok l, s')) (op' : Relation) (ty' : Ty) :
    ∃ l' s'', ((node (.relation op') ty' [b, a]).toLiteral ⟨types, .mapped r⟩ frame).run s' =
        (.ok l', s'') ∧
      ∀ v, s''.circuit.formula.eval v = true → ∀ rest,
        (a.bitsAt types (r.trace rest v) frame).length =
          (b.bitsAt types (r.trace rest v) frame).length ∧
        l.eval v = (node (.relation op) ty [a, b]).truthAt types (r.trace rest v) frame ∧
        l'.eval v = (node (.relation op') ty' [b, a]).truthAt types (r.trace rest v) frame := by
  obtain ⟨x, y, t, t', hx, hy, hlength⟩ := words_of_relation hrun
  obtain ⟨l', s'', hrun', -⟩ :=
    succeeds_relation op' ty' (succeeds_toWord hy) (hlength ▸ succeeds_toWord hx) s'
  refine ⟨l', s'', hrun', fun v hv rest => ?_⟩
  obtain ⟨ht, hleft, -⟩ := a.bits_of_toWord hs hx
  obtain ⟨-, hright, -⟩ := b.bits_of_toWord ht hy
  obtain ⟨hs', hvalue⟩ := eval_of_toLiteral _ hs hrun
  obtain ⟨hs'', hvalue'⟩ := eval_of_toLiteral _ hs' hrun'
  have hone := hs''.constant v hv
  refine ⟨?_, (hvalue v (hvalue' v hv).1).2 rest, (hvalue' v hv).2 rest⟩
  rw [← hleft v hone rest, ← hright v hone rest, hlength]

/-! ## The sign that is read -/

/-- Two expressions are read alike with the sign of either type: the types are both signed or both
unsigned, or the bits have the same sign bit. -/
def SameSign (types : TypeTable) (trace : Trace) (frame : Frame) (a b : Expr) : Prop :=
  types.isSigned a.ty = types.isSigned b.ty ∨
    (a.bitsAt types trace frame).getLastD false = (b.bitsAt types trace frame).getLastD false

theorem truthAt_turned_iff (op : Relation) (ty ty' : Ty) {a b : Expr} {trace : Trace}
    (h : (a.bitsAt types trace frame).length = (b.bitsAt types trace frame).length) :
    (node (.relation op) ty [a, b]).truthAt types trace frame =
        (op.turned.2 ^^ (node (.relation op.turned.1) ty' [b, a]).truthAt types trace frame) ↔
      SameSign types trace frame a b := by
  rw [truthAt_relation, truthAt_relation, ← Meaning.relation_turned]
  exact Meaning.relation_value_eq_iff h op _ _

/-- **A relation turned round has the same value if both operands have one sign.** On a circuit that
operations on any literals lead to, and with variables unrolled to any literals, lower a relation of
two expressions. Then the relation of the operands the other way round can be lowered as well, and
in every model of what was built, the first one has the value of the second one, or that of its
negation for `≤`, exactly if the types of the operands are both signed or both unsigned or the
operands have the same sign bit. The same holds if the second one is lowered first. -/
theorem turned_iff_sameSign {options : GateOptions} (hs : s.circuit.Reached options)
    (types : TypeTable) (map : Unrolled) (a b : Expr) (op : Relation) (ty ty' : Ty) (frame : Frame)
    (rest : Trace) :
    let setting : Setting := ⟨types, .mapped map.resolver⟩
    let first : Expr := .node (.relation op) ty [a, b]
    let second : Expr := .node (.relation op.turned.1) ty' [b, a]
    (∀ l s₁, (first.toLiteral setting frame).run s = (.ok l, s₁) →
      ∃ l' s₂, (second.toLiteral setting frame).run s₁ = (.ok l', s₂) ∧
        ∀ v, s₂.circuit.formula.eval v = true → (l.eval v = (op.turned.2 ^^ l'.eval v) ↔
          SameSign types (map.resolver.trace rest v) frame a b)) ∧
    (∀ l' s₁, (second.toLiteral setting frame).run s = (.ok l', s₁) →
      ∃ l s₂, (first.toLiteral setting frame).run s₁ = (.ok l, s₂) ∧
        ∀ v, s₂.circuit.formula.eval v = true → (l.eval v = (op.turned.2 ^^ l'.eval v) ↔
          SameSign types (map.resolver.trace rest v) frame a b)) := by
  intro setting first second
  constructor
  · intro l s₁ hrun
    obtain ⟨l', s₂, hrun', hvalues⟩ := exists_turned hs.explained hrun op.turned.1 ty'
    refine ⟨l', s₂, hrun', fun v hv => ?_⟩
    obtain ⟨hlength, hl, hl'⟩ := hvalues v hv rest
    rw [hl, hl']
    exact truthAt_turned_iff op ty ty' hlength
  · intro l' s₁ hrun
    obtain ⟨l, s₂, hrun', hvalues⟩ := exists_turned hs.explained hrun op ty
    refine ⟨l, s₂, hrun', fun v hv => ?_⟩
    obtain ⟨hlength, hl', hl⟩ := hvalues v hv rest
    rw [hl, hl']
    exact truthAt_turned_iff op ty ty' hlength.symm

/-- A signed and an unsigned variable of one bit, where `>` and `<` agree if the bits do. -/
theorem turned_iff_sameSign_one_bit :
    let x : Expr := .symbol "x" (.signed 1)
    let y : Expr := .symbol "y" (.unsigned 1)
    let map : Unrolled := (Unrolled.empty.set 0 "x" 0 ⟨1, true⟩).set 0 "y" 0 ⟨2, true⟩
    let setting : Setting := ⟨.empty, .mapped map.resolver⟩
    ∃ (s s₁ s₂ : Lowering) (l l' : Literal), s.circuit.Reached { gateSharing := false } ∧
      ((node (.relation .gt) .bool [x, y]).toLiteral setting .phases).run s = (.ok l, s₁) ∧
      ((node (.relation .lt) .bool [y, x]).toLiteral setting .phases).run s₁ = (.ok l', s₂) ∧
      ∀ v, s₂.circuit.formula.eval v = true → (l.eval v = l'.eval v ↔ v 1 = v 2) := by
  intro x y map setting
  have hruns : ∃ (s s₁ : Lowering) (l : Literal), s.circuit.Reached { gateSharing := false } ∧
      ((node (.relation .gt) .bool [x, y]).toLiteral setting .phases).run s = (.ok l, s₁) :=
    ⟨{ circuit := _ }, _, _, (Circuit.Reached.start.step .newVariable).step .newVariable, rfl⟩
  obtain ⟨s, s₁, l, hs, hrun⟩ := hruns
  let rest : Trace := fun _ _ _ => false
  obtain ⟨l', s₂, hrun', hvalues⟩ :=
    (turned_iff_sameSign hs .empty map x y .gt .bool .bool .phases rest).1 l s₁ hrun
  refine ⟨s, s₁, s₂, l, l', hs, hrun, hrun', fun v hv => ?_⟩
  have hsign : SameSign .empty (map.resolver.trace rest v) .phases x y ↔ v 1 = v 2 := by
    have hx : x.bitsAt .empty (map.resolver.trace rest v) .phases = [Literal.eval ⟨1, true⟩ v] :=
      rfl
    have hy : y.bitsAt .empty (map.resolver.trace rest v) .phases = [Literal.eval ⟨2, true⟩ v] :=
      rfl
    have htypes : TypeTable.empty.isSigned x.ty ≠ TypeTable.empty.isSigned y.ty := by decide
    simp [SameSign, hx, hy, htypes, Literal.eval_positive]
  rw [← hsign, ← hvalues v hv]
  simp [Relation.turned]

/-- The numbers -1, which is signed, and 0, which is not, of one bit. No relation has the value of
the one that turns it round. -/
theorem exists_turned_ne :
    ∃ (a b : Expr) (s : Lowering), s.circuit.Reached {} ∧
      TypeTable.empty.width a.ty = TypeTable.empty.width b.ty ∧
      ∀ op : Relation, ∃ (l l' : Literal) (s₁ s₂ : Lowering) (v : Valuation),
        ((node (.relation op) .bool [a, b]).toLiteral
          ⟨.empty, .mapped Unrolled.empty.resolver⟩ .phases).run s = (.ok l, s₁) ∧
        ((node (.relation op.turned.1) .bool [b, a]).toLiteral
          ⟨.empty, .mapped Unrolled.empty.resolver⟩ .phases).run s₁ = (.ok l', s₂) ∧
        s₂.circuit.formula.eval v = true ∧ l.eval v ≠ (op.turned.2 ^^ l'.eval v) := by
  refine ⟨.constant (-1) (.signed 1), .constant 0 (.unsigned 1), { circuit := .initial {} }, .start,
    by decide, fun op => ?_⟩
  cases op <;> exact ⟨_, _, _, _, fun _ => true, rfl, rfl, by decide +kernel, by decide⟩

end Expr

end BitUnroll
