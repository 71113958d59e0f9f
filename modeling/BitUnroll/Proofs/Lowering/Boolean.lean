import BitUnroll.Proofs.Lowering.Binding
import BitUnroll.Proofs.Lowering.Values

/-!
# Boolean expressions as literals and as words

An expression of a Boolean type can be lowered both ways. Where both succeed, in either order and
on any circuit, the word has a single bit, and that bit has the value of the literal in every model.
The exception is a number: as a literal it is true unless it is zero, and as a word it is its lowest
bit, so the two differ for even numbers other than zero.

## Main statements

* `Expr.length_bitsAt`: a Boolean expression with a literal has a single bit.
* `Expr.literal_eq_bit`: the literal and the bit of a Boolean expression.
* `Expr.exists_literal_ne_bit`: the Boolean number two.
-/

namespace BitUnroll

namespace Expr

variable {types : TypeTable} {r : Resolver} {trace : Trace} {frame : Frame} {e : Expr}
  {s s' : Lowering}

/-- The bits of a Boolean expression that gives a truth value by nature are that truth value. -/
theorem bitsAt_of_not_isWord (hbool : types.isBool e.ty = true) (hword : e.kind.isWord = false) :
    e.bitsAt types trace frame = [e.truthAt types trace frame] := by
  obtain ⟨kind, ty, es⟩ := e
  have hbits : (node kind ty es).bitsAt types trace frame =
      [Meaning.logical types kind (meanings types trace es) frame] := by
    show Meaning.bitsOf types trace _ _ frame = _
    simp only [kind_node, ty_node] at hbool hword
    simp [Meaning.bitsOf, hbool, hword]
  rw [hbits]
  cases kind with
  | truth | nil | not | connective | implies | equality | ite | relation | extractBit | temporal =>
    rfl
  | symbol | nextSymbol | constant | complement | negate | binary | extractBits | concat | cast =>
    cases hword

/-- The only bit of a Boolean expression is its truth value, unless it is an even number other than
zero. -/
theorem bitsAt_eq_truthAt (hbool : types.isBool e.ty = true)
    (hconstant : ∀ n, e.kind = .constant n → n = 0 ∨ n % 2 = 1)
    (hlength : (e.bitsAt types trace frame).length = 1) :
    e.bitsAt types trace frame = [e.truthAt types trace frame] := by
  by_cases hnumber : ∃ n, e.kind = .constant n
  · obtain ⟨n, hn⟩ := hnumber
    have hparity := hconstant n hn
    obtain ⟨kind, ty, es⟩ := e
    obtain rfl : kind = .constant n := hn
    have hbool : types.isBool ty = true := hbool
    show Bits.ofInt (types.width ty) n = [if types.isBool ty then n != 0 else _]
    rw [TypeTable.width_of_isBool hbool, if_pos hbool]
    rcases hparity with rfl | hodd
    · rfl
    · have hne : n ≠ 0 := by omega
      simp [Bits.ofInt, hodd, hne]
  · cases hword : e.kind.isWord with
    | true =>
      rw [truthAt_of_isWord hword fun n hn => absurd ⟨n, hn⟩ hnumber]
      obtain ⟨b, hb⟩ := List.length_eq_one_iff.1 hlength
      rw [hb]
      cases b <;> rfl
    | false => exact bitsAt_of_not_isWord hbool hword

/-- The literal of an expression that gives bits by nature is the only bit of its word, unless the
expression is a Boolean constant. -/
theorem run_toWord_of_isWord (hword : e.kind.isWord = true)
    (hconstant : ∀ n, e.kind = .constant n → types.isBool e.ty = false) {l : Literal}
    (hrun : (e.toLiteral ⟨types, .mapped r⟩ frame).run s = (.ok l, s')) :
    (e.toWord ⟨types, .mapped r⟩ frame).run s = (.ok [l], s') := by
  obtain ⟨kind, ty, es⟩ := e
  have hofWord : (Lower.truthOf.ofWord ⟨types, .mapped r⟩ (.node kind ty es)
      (lowerAll ⟨types, .mapped r⟩ es) frame).run s = (.ok l, s') := by
    rw [← hrun]
    cases kind with
    | constant n =>
      have hbool : types.isBool ty = false := hconstant n rfl
      show _ = (if types.isBool ty then _ else _ : Lower Literal).run s
      rw [hbool]
      rfl
    | symbol | nextSymbol | complement | negate | binary | extractBits | concat | cast => rfl
    | truth | nil | not | connective | implies | equality | ite | relation | extractBit
    | temporal => cases hword
  have htoWord : (node kind ty es).toWord ⟨types, .mapped r⟩ frame =
      Lower.wordy ⟨types, .mapped r⟩ (.node kind ty es) (lowerAll ⟨types, .mapped r⟩ es) frame := by
    show Lower.wordOf _ _ _ _ = _
    rw [Lower.wordOf, if_pos]
    exact Bool.or_eq_true_iff.2 (.inl hword)
  rw [htoWord]
  unfold Lower.truthOf.ofWord at hofWord
  split at hofWord
  · obtain ⟨w, t, hw, hofWord⟩ := run_bind_ok hofWord
    unfold Lower.oneBit at hofWord
    split at hofWord
    · cases hofWord
      exact hw
    · cases hofWord
  · cases hofWord

/-- Where an expression of a Boolean type has a literal, it has a single bit. -/
theorem length_bitsAt (hs : s.circuit.Explained) (hbool : types.isBool e.ty = true) {l : Literal}
    (hrun : (e.toLiteral ⟨types, .mapped r⟩ frame).run s = (.ok l, s')) {v : Valuation}
    (hv : v 0 = true) (rest : Trace) :
    (e.bitsAt types (r.trace rest v) frame).length = 1 := by
  by_cases hconstant : ∃ n, e.kind = .constant n
  · obtain ⟨n, hn⟩ := hconstant
    obtain ⟨kind, ty, es⟩ := e
    obtain rfl : kind = .constant n := hn
    show (Bits.ofInt (types.width ty) n).length = 1
    rw [Bits.length_ofInt]
    exact TypeTable.width_of_isBool hbool
  · cases hword : e.kind.isWord with
    | true =>
      have hword := run_toWord_of_isWord hword (fun n hn => absurd ⟨n, hn⟩ hconstant) hrun
      exact ((bits_of_toWord e hs hword).2.1 v hv rest).symm
    | false => rw [bitsAt_of_not_isWord hbool hword, List.length_singleton]

/-- What both ways of lowering give, from the state that either of them started in. -/
theorem exists_bit {l : Literal} {w : Word} {t s'' : Lowering} (hs : s.circuit.Explained)
    (ht : t.circuit.Explained) (hbool : types.isBool e.ty = true)
    (hconstant : ∀ n, e.kind = .constant n → n = 0 ∨ n % 2 = 1)
    (hliteral : (e.toLiteral ⟨types, .mapped r⟩ frame).run s = (.ok l, s'))
    (hword : (e.toWord ⟨types, .mapped r⟩ frame).run t = (.ok w, s'')) :
    ∃ b, w = [b] ∧ ∀ v, s'.circuit.formula.eval v = true → s''.circuit.formula.eval v = true →
      b.eval v = l.eval v := by
  let rest : Trace := fun _ _ _ => false
  have hlength : ∀ v, v 0 = true → (e.bitsAt types (r.trace rest v) frame).length = 1 :=
    fun v hv => length_bitsAt hs hbool hliteral hv rest
  obtain ⟨hexplained, htruth⟩ := e.eval_of_toLiteral hs hliteral
  obtain ⟨-, hwidth, hbits⟩ := e.bits_of_toWord ht hword
  have hone : w.length = 1 :=
    (hwidth (fun _ => true) rfl rest).trans (hlength (fun _ => true) rfl)
  obtain ⟨b, rfl⟩ := List.length_eq_one_iff.1 hone
  refine ⟨b, rfl, fun v hv hv' => ?_⟩
  have hbit := (hbits v hv').2 rest
  rw [bitsAt_eq_truthAt hbool hconstant (hlength v (hexplained.constant v hv)),
    ← (htruth v hv).2 rest] at hbit
  exact (List.cons.inj hbit).1

/-- **The literal and the bit of a Boolean expression are equal.** On a circuit that operations on
any literals lead to, and with variables unrolled to any literals, lower an expression of a Boolean
type both ways, in either order. If both succeed, the word has exactly one bit, with the value of
the literal in every model of what was built. The expression may not be an even number other than
zero, whose literal is true and whose bit is false; below other expressions such numbers are
allowed. -/
theorem literal_eq_bit {options : GateOptions} (hs : s.circuit.Reached options)
    {types : TypeTable} (map : Unrolled) {e : Expr} (hbool : types.isBool e.ty = true)
    (hconstant : ∀ n, e.kind = .constant n → n = 0 ∨ n % 2 = 1) (frame : Frame) {l : Literal}
    {w : Word} {s₁ s₂ : Lowering} :
    ((e.toLiteral ⟨types, .mapped map.resolver⟩ frame).run s = (.ok l, s₁) →
      (e.toWord ⟨types, .mapped map.resolver⟩ frame).run s₁ = (.ok w, s₂) →
      ∃ b, w = [b] ∧ ∀ v, s₂.circuit.formula.eval v = true → b.eval v = l.eval v) ∧
    ((e.toWord ⟨types, .mapped map.resolver⟩ frame).run s = (.ok w, s₁) →
      (e.toLiteral ⟨types, .mapped map.resolver⟩ frame).run s₁ = (.ok l, s₂) →
      ∃ b, w = [b] ∧ ∀ v, s₂.circuit.formula.eval v = true → b.eval v = l.eval v) := by
  constructor
  · intro hliteral hword
    have h₁ := e.eval_of_toLiteral hs.explained hliteral
    have h₂ := e.bits_of_toWord h₁.1 hword
    obtain ⟨b, hb, heq⟩ := exists_bit hs.explained h₁.1 hbool hconstant hliteral hword
    exact ⟨b, hb, fun v hv => heq v (h₂.2.2 v hv).1 hv⟩
  · intro hword hliteral
    have h₁ := e.bits_of_toWord hs.explained hword
    have h₂ := e.eval_of_toLiteral h₁.1 hliteral
    obtain ⟨b, hb, heq⟩ := exists_bit h₁.1 hs.explained hbool hconstant hliteral hword
    exact ⟨b, hb, fun v hv => heq v hv (h₂.2 v hv).1⟩

/-- A bit by bit conjunction of two truth values. Where gates are not shared it is built twice. -/
theorem literal_eq_bit_bitand :
    let e : Expr := .node (.binary .and) .bool [.symbol "x" .bool, .symbol "y" .bool]
    let map : Unrolled := (Unrolled.empty.set 0 "x" 0 ⟨1, true⟩).set 0 "y" 0 ⟨2, true⟩
    ∃ s s₁ s₂ : Lowering, s.circuit.Reached { gateSharing := false } ∧
      (e.toLiteral ⟨.empty, .mapped map.resolver⟩ .phases).run s = (.ok ⟨3, true⟩, s₁) ∧
      (e.toWord ⟨.empty, .mapped map.resolver⟩ .phases).run s₁ = (.ok [⟨4, true⟩], s₂) ∧
      ∀ v, s₂.circuit.formula.eval v = true → v 4 = v 3 := by
  intro e map
  have hbool : TypeTable.empty.isBool e.ty = true := by decide
  have hruns : ∃ s s₁ s₂ : Lowering, s.circuit.Reached { gateSharing := false } ∧
      (e.toLiteral ⟨.empty, .mapped map.resolver⟩ .phases).run s = (.ok ⟨3, true⟩, s₁) ∧
      (e.toWord ⟨.empty, .mapped map.resolver⟩ .phases).run s₁ = (.ok [⟨4, true⟩], s₂) :=
    ⟨{ circuit := _ }, _, _, (Circuit.Reached.start.step .newVariable).step .newVariable,
      rfl, rfl⟩
  obtain ⟨s, s₁, s₂, hs, h₁, h₂⟩ := hruns
  obtain ⟨b, hb, heq⟩ := (literal_eq_bit hs map hbool nofun .phases).1 h₁ h₂
  obtain rfl := (List.cons.inj hb).1
  refine ⟨s, s₁, s₂, hs, h₁, h₂, fun v hv => ?_⟩
  rw [← Literal.eval_positive 4 v, ← Literal.eval_positive 3 v]
  exact heq v hv

/-- The Boolean number two is true as a literal, and its bit is false. -/
theorem exists_literal_ne_bit :
    ∃ (e : Expr) (l b : Literal) (s s₁ s₂ : Lowering) (v : Valuation),
      s.circuit.Reached {} ∧ TypeTable.empty.isBool e.ty = true ∧
      (e.toLiteral ⟨.empty, .mapped Unrolled.empty.resolver⟩ .phases).run s = (.ok l, s₁) ∧
      (e.toWord ⟨.empty, .mapped Unrolled.empty.resolver⟩ .phases).run s₁ = (.ok [b], s₂) ∧
      s₂.circuit.formula.eval v = true ∧ l.eval v = true ∧ b.eval v = false :=
  ⟨.constant 2 .bool, .top, .bottom, { circuit := .initial {} }, _, _, fun _ => true,
    .start, by decide, rfl, rfl, by decide +kernel, rfl, rfl⟩

end Expr

end BitUnroll
