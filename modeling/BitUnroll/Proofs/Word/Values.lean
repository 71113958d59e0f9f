import BitUnroll.Proofs.Circuit.Values
import BitUnroll.Proofs.Word.Circuits
import BitUnroll.Proofs.Word.Lengths

/-!
# Arithmetic on any circuit

An operation on words computes what it should also where its literals are not those of a netlist:
on literals of variables that the circuit never handed out, and on a circuit whose gates took such
variables for their outputs. In every model its result has the bits that the operation has on the
constants of its operands' values, where every gate is folded. What an operation on constants
computes is known, since constants are always there.

## Main definitions

* `Word.valued`: the constants of a word's values.
* `Word.Gated.Exact`: in every model the value of an operation is a number, modulo its width.
* `Word.Gated.Decides`: in every model the literal of an operation says whether a condition holds.

## Main statements

* `Word.Gated.Gives.exact`, `Word.Gated.Gives.decides`: an operation is exact if it is on constants.
* `Word.exact_sums`: sums, differences and negation.
* `Word.exact_products`: products of unsigned and of signed words.
* `Word.exact_order`: the order of unsigned and of signed words.
-/

namespace BitUnroll

namespace Word

variable {α β : Type} {v : Valuation} {c : Circuit}

/-! ## Constants for words -/

/-- The constants of the values of a word's bits. -/
def valued (a : Word) (v : Valuation) : Word := (a.bits v).map .ofBool

@[simp] theorem length_valued (a : Word) (v : Valuation) : (a.valued v).length = a.length := by
  simp [valued]

theorem toNat_valued (a : Word) (v : Valuation) {u : Valuation} (hu : u 0 = true) :
    (a.valued v).toNat u = a.toNat v := by
  rw [toNat, valued, bits_map_ofBool hu, toNat]

/-- Constants are there from the beginning. -/
theorem within_valued (a : Word) (v : Valuation) : (a.valued v).Within [.constant] := by
  intro l hl
  obtain ⟨p, -, rfl⟩ := List.mem_map.1 hl
  exact Nat.zero_lt_one

theorem words_valued (a : Word) (v : Valuation) (holds : Prop) :
    (Comparison.values v).words holds a (a.valued v) := by
  unfold Comparison.words valued bits
  rw [List.map_map, List.forall₂_map_right_iff, List.forall₂_same]
  exact fun l _ => Comparison.literals_values v holds l

/-! ## Operations beside constants -/

namespace Gated

/-- In every model an operation's result corresponds to one on constants, and so to one of which
something is known. -/
theorem exists_constant (hc : c.Explained) {x : Gated α} {y : Valuation → Gated β}
    {related : Valuation → Prop → α → β → Prop} {known : Valuation → β → Netlist → Prop}
    (hgates : ∀ v, v 0 = true → ∀ holds : Prop,
      (Comparison.values v).Gates holds x (y v) (related v))
    (hknown : ∀ v, Gated.AddsGates [.constant] (y v) (known v)) {r : α}
    (hr : (x.run c).1 = .ok r) (hv : (x.run c).2.formula.eval v = true) :
    ∃ (holds : Prop) (r' : β) (net : Netlist) (u : Valuation), holds ∧ related v holds r r' ∧
      known v r' net ∧ net.Holds u ∧ u 0 = true := by
  -- beside any constants at all, for what the circuit is led to
  obtain ⟨-, -, ⟨hexplained, -⟩, -⟩ :=
    hgates (fun _ => true) rfl True c (.initial {}) ⟨hc, fun _ => trivial, rfl⟩
  obtain ⟨holds, -, ⟨-, hholds, -⟩, hagree⟩ := hgates v (hexplained.constant v hv)
    (c.formula.eval v = true) c (.initial {}) ⟨hc, fun h => h, rfl⟩
  obtain ⟨keys, hfits, hpost⟩ := hknown v (.initial {}) [] (Circuit.fits_initial {})
  have hsettle := Netlist.holds_settle hfits.ordered v
  rw [hr] at hagree
  rcases hy : ((y v).run (.initial {})).1 with lengths | r' <;> rw [hy] at hagree <;> cases hagree
  exact ⟨holds, r', _, _, hholds hv, ‹_›, hpost r' hy, hsettle, hfits.eval_constant hsettle⟩

/-- On a circuit no lengths stop an operation, and in every model of the circuit that it leads to,
its word has the value of a number, modulo two to the power of the width. -/
def Exact (x : Gated Word) (c : Circuit) (width : Nat) (n : Valuation → Int) : Prop :=
  ∃ w, (x.run c).1 = .ok w ∧ w.length = width ∧
    ∀ v, (x.run c).2.formula.eval v = true → (w.toNat v : Int) = n v % 2 ^ width

/-- An operation that no lengths stop, and that has on constants the bits of a number, is exact. -/
theorem Gives.exact {x : Gated Word} {y : Valuation → Gated Word} {width : Nat}
    {n : Valuation → Int} {bits : Valuation → Valuation → Bits}
    (hx : x.Gives fun w => w.length = width) (hc : c.Explained)
    (hgates : ∀ v, v 0 = true → ∀ holds : Prop,
      (Comparison.values v).Gates holds x (y v) (Comparison.values v).words)
    (hy : ∀ v, Gated.AddsGates [.constant] (y v) fun w net => w.Denotes net (bits v))
    (hbits : ∀ v u, u 0 = true → bits v u = .ofInt width (n v)) : x.Exact c width n := by
  obtain ⟨w, hw, hlength⟩ := hx c
  refine ⟨w, hw, hlength, fun v hv => ?_⟩
  obtain ⟨holds, w', net, u, hholds, hwords, hdenotes, hu, hone⟩ :=
    exists_constant hc hgates hy hw hv
  obtain ⟨ps, rfl, -, hps⟩ := Comparison.exists_bits_of_words hwords
  have hvalue : ps = .ofInt width (n v) := by
    rw [← bits_map_ofBool hone ps, hdenotes.bits_eq u hu, hbits v u hone]
  rw [toNat, hps hholds, hvalue, Bits.toNat_ofInt]

/-- A number counts modulo the width only. -/
theorem Exact.congr {x : Gated Word} {width : Nat} {m n : Valuation → Int}
    (hx : x.Exact c width m) (h : ∀ v, m v ≡ n v [ZMOD 2 ^ width]) : x.Exact c width n := by
  obtain ⟨w, hw, hlength, hvalue⟩ := hx
  exact ⟨w, hw, hlength, fun v hv => (hvalue v hv).trans (h v)⟩

/-- On a circuit no lengths stop an operation, and in every model of the circuit that it leads to,
its literal is true exactly if a condition holds. -/
def Decides (x : Gated Literal) (c : Circuit) (condition : Valuation → Prop) : Prop :=
  ∃ l, (x.run c).1 = .ok l ∧
    ∀ v, (x.run c).2.formula.eval v = true → (l.eval v = true ↔ condition v)

/-- An operation that no lengths stop, and that has on constants the truth value of a condition,
decides the condition. -/
theorem Gives.decides {x : Gated Literal} {y : Valuation → Gated Literal}
    {condition : Valuation → Prop} {value : Valuation → Valuation → Bool}
    (hx : x.Gives fun _ => True) (hc : c.Explained)
    (hgates : ∀ v, v 0 = true → ∀ holds : Prop,
      (Comparison.values v).Gates holds x (y v) (Comparison.values v).literals)
    (hy : ∀ v, Gated.AddsGates [.constant] (y v) fun l net => l.Denotes net (value v))
    (hvalue : ∀ v u, u 0 = true → (value v u = true ↔ condition v)) : x.Decides c condition := by
  obtain ⟨l, hl, -⟩ := hx c
  refine ⟨l, hl, fun v hv => ?_⟩
  obtain ⟨holds, l', net, u, hholds, hliteral, hdenotes, hu, hone⟩ :=
    exists_constant hc hgates hy hl hv
  obtain ⟨p, rfl, hp⟩ := hliteral
  rw [hp hholds, ← hvalue v u hone, ← hdenotes.eval_eq u hu, Literal.eval_ofBool hone]

end Gated

/-! ## Sums -/

theorem exact_add (hc : c.Explained) {a b : Word} (h : a.length = b.length) (carry : Literal) :
    (add a b carry).Exact c a.length fun v => a.toNat v + b.toNat v + (carry.eval v).toNat := by
  have hcarry : ∀ v, (Literal.ofBool (carry.eval v)).var < [Source.constant].length :=
    fun _ => Nat.zero_lt_one
  refine (gives_add carry h).exact hc (fun v hv holds => ?_) (fun v =>
    addsGates_add (hcarry v) (within_valued a v) (within_valued b v)) fun v u hu => ?_
  · exact (Comparison.lawful_values hv).add (Comparison.literals_values v holds carry)
      (words_valued a v holds) (words_valued b v holds)
  · rw [toNat_valued a v hu, toNat_valued b v hu, Literal.eval_ofBool hu, length_valued]

theorem exact_sub (hc : c.Explained) {a b : Word} (h : a.length = b.length) :
    (sub a b).Exact c a.length fun v => a.toNat v - b.toNat v := by
  refine (gives_sub h).exact hc (fun v hv holds => ?_) (fun v =>
    addsGates_sub rfl (within_valued a v) (within_valued b v)) fun v u hu => ?_
  · exact (Comparison.lawful_values hv).sub (words_valued a v holds) (words_valued b v holds)
  · rw [toNat_valued a v hu, toNat_valued b v hu, length_valued]

theorem exact_negate (hc : c.Explained) (a : Word) :
    a.negate.Exact c a.length fun v => -a.toNat v := by
  refine (gives_negate a).exact hc (fun v hv holds => ?_) (fun v =>
    addsGates_negate rfl (within_valued a v)) fun v u hu => ?_
  · exact (Comparison.lawful_values hv).negate (words_valued a v holds)
  · rw [toNat_valued a v hu, length_valued]

/-- **Sums are exact modulo the width.** On a circuit that operations lead to, whatever literals
they were performed on, let two words have one length. No lengths stop addition, subtraction or
negation, and in every model of the circuit afterwards, the value of their result is that of the
sum of the words and a carry, of their difference and of the negation, modulo two to the power of
the length. -/
theorem exact_sums {options : GateOptions} (hc : c.Reached options) {a b : Word}
    (h : a.length = b.length) (carry : Literal) :
    ((add a b carry).Exact c a.length fun v => a.toNat v + b.toNat v + (carry.eval v).toNat) ∧
    ((sub a b).Exact c a.length fun v => a.toNat v - b.toNat v) ∧
    a.negate.Exact c a.length fun v => -a.toNat v :=
  ⟨exact_add hc.explained h carry, exact_sub hc.explained h, exact_negate hc.explained a⟩

/-- Words of three bits with a literal in several places, its negation and a constant, and with a
variable that was never handed out. -/
theorem exact_sums_repeated :
    let x : Literal := ⟨1, true⟩
    let a : Word := [x, -x, .top]
    let b : Word := [x, x, ⟨9, true⟩]
    ∃ c : Circuit, c.Reached {} ∧ c.formula.numVars = 2 ∧ a.length = b.length ∧
      ((add a b (-x)).Exact c a.length fun v =>
        a.toNat v + b.toNat v + ((-x).eval v).toNat) ∧
      ((sub a b).Exact c a.length fun v => a.toNat v - b.toNat v) ∧
      a.negate.Exact c a.length fun v => -a.toNat v := by
  intro x a b
  obtain ⟨c, hc, hnum⟩ : ∃ c : Circuit, c.Reached {} ∧ c.formula.numVars = 2 :=
    ⟨_, Circuit.Reached.start.step .newVariable, rfl⟩
  have hlength : a.length = b.length := rfl
  exact ⟨c, hc, hnum, hlength, exact_sums hc hlength (-x)⟩

/-! ## Products -/

theorem exact_mul (hc : c.Explained) {a b : Word} (h : a.length = b.length) :
    (mul a b).Exact c a.length fun v => a.toNat v * b.toNat v := by
  refine (gives_mul h).exact hc (fun v hv holds => ?_) (fun v =>
    addsGates_mul rfl (within_valued a v) (within_valued b v)) fun v u hu => ?_
  · exact (Comparison.lawful_values hv).mul (words_valued a v holds) (words_valued b v holds)
  · rw [toNat_valued a v hu, toNat_valued b v hu, length_valued]

/-- A word has one value modulo its width, signed or not. -/
theorem toNat_modEq_toInt (a : Word) (v : Valuation) :
    (a.toNat v : Int) ≡ a.toInt v [ZMOD 2 ^ a.length] := by
  have h := (a.bits v).toInt_modEq_toNat
  rw [length_bits] at h
  exact h.symm

/-- A word whose value is a remainder has the balanced remainder for its signed value. -/
theorem toInt_of_toNat {a : Word} {n : Int} (h : (a.toNat v : Int) = n % 2 ^ a.length) :
    a.toInt v = n.bmod (2 ^ a.length) := by
  have hvalue : ((a.bits v).toNat : Int) = n % 2 ^ a.length := h
  rw [toInt, Bits.toInt_eq_bmod, length_bits, hvalue]
  exact_mod_cast Int.emod_bmod n (2 ^ a.length)

/-- **Products are exact modulo the width.** On a circuit that operations lead to, whatever literals
they were performed on, let two words have one length. No lengths stop multiplication, and in every
model of the circuit afterwards, the value of its result is the product of the values of the words,
modulo two to the power of the length. It is the product of their signed values as well, and its own
signed value is that product's balanced remainder. -/
theorem exact_products {options : GateOptions} (hc : c.Reached options) {a b : Word}
    (h : a.length = b.length) :
    ∃ w, ((mul a b).run c).1 = .ok w ∧ w.length = a.length ∧
      ∀ v, ((mul a b).run c).2.formula.eval v = true →
        w.toNat v = a.toNat v * b.toNat v % 2 ^ a.length ∧
        (w.toNat v : Int) = a.toInt v * b.toInt v % 2 ^ a.length ∧
        w.toInt v = (a.toInt v * b.toInt v).bmod (2 ^ a.length) := by
  have hsigned : (mul a b).Exact c a.length fun v => a.toInt v * b.toInt v :=
    (exact_mul hc.explained h).congr fun v =>
      (a.toNat_modEq_toInt v).mul (h ▸ b.toNat_modEq_toInt v)
  obtain ⟨w, hw, hlength, hvalue⟩ := exact_mul hc.explained h
  obtain ⟨w', hw', -, hvalue'⟩ := hsigned
  obtain rfl : w' = w := Except.ok.inj (hw'.symm.trans hw)
  refine ⟨w', hw, hlength, fun v hv => ⟨?_, hvalue' v hv, hlength ▸ toInt_of_toNat ?_⟩⟩
  · have hproduct : (w'.toNat v : Int) = a.toNat v * b.toNat v % 2 ^ a.length := hvalue v hv
    exact_mod_cast hproduct
  · rw [hlength]
    exact hvalue' v hv

/-- Words of three bits with a literal in several places, its negation and a constant, and with a
variable that was never handed out. -/
theorem exact_products_repeated :
    let x : Literal := ⟨1, true⟩
    let a : Word := [x, -x, .top]
    let b : Word := [x, x, ⟨9, true⟩]
    ∃ c : Circuit, c.Reached {} ∧ c.formula.numVars = 2 ∧ a.length = b.length ∧
      ∃ w, ((mul a b).run c).1 = .ok w ∧ w.length = a.length ∧
        ∀ v, ((mul a b).run c).2.formula.eval v = true →
          w.toNat v = a.toNat v * b.toNat v % 8 ∧
          (w.toNat v : Int) = a.toInt v * b.toInt v % 8 ∧
          w.toInt v = (a.toInt v * b.toInt v).bmod 8 := by
  intro x a b
  obtain ⟨c, hc, hnum⟩ : ∃ c : Circuit, c.Reached {} ∧ c.formula.numVars = 2 :=
    ⟨_, Circuit.Reached.start.step .newVariable, rfl⟩
  have hlength : a.length = b.length := rfl
  exact ⟨c, hc, hnum, hlength, exact_products hc hlength⟩

/-! ## Order -/

theorem decides_lessThan (hc : c.Explained) {a b : Word} (h : a.length = b.length)
    (signed : Bool) :
    (lessThan a b signed).Decides c fun v =>
      (a.bits v).value signed < (b.bits v).value signed := by
  refine (gives_lessThan h signed).decides hc (fun v hv holds => ?_) (fun v =>
    addsGates_lessThan rfl (within_valued a v) (within_valued b v) signed) fun v u hu => ?_
  · exact (Comparison.lawful_values hv).lessThan (words_valued a v holds) (words_valued b v holds)
      signed
  · rw [valued, valued, bits_map_ofBool hu, bits_map_ofBool hu, decide_eq_true_iff]

/-- **Comparison is the order of numbers.** On a circuit that operations lead to, whatever literals
they were performed on, let two words have one length, which may be zero. No lengths stop their
comparison, and in every model of the circuit afterwards, its literal is true exactly if the value
of the first word is below that of the second one: the unsigned value, or the two's complement
value where the words are compared as signed ones. -/
theorem exact_order {options : GateOptions} (hc : c.Reached options) {a b : Word}
    (h : a.length = b.length) :
    ((lessThan a b false).Decides c fun v => a.toNat v < b.toNat v) ∧
      (lessThan a b true).Decides c fun v => a.toInt v < b.toInt v := by
  refine ⟨?_, decides_lessThan hc.explained h true⟩
  obtain ⟨l, hl, hvalue⟩ := decides_lessThan hc.explained h false
  exact ⟨l, hl, fun v hv => (hvalue v hv).trans Int.ofNat_lt⟩

/-- Words of one bit, where the sign bit is the only one, and one of them is a variable that was
never handed out. -/
theorem exact_order_one_bit :
    let a : Word := [⟨1, true⟩]
    let b : Word := [⟨9, true⟩]
    ∃ c : Circuit, c.Reached {} ∧ c.formula.numVars = 2 ∧ a.length = b.length ∧
      ((lessThan a b false).Decides c fun v => a.toNat v < b.toNat v) ∧
      (lessThan a b true).Decides c fun v => a.toInt v < b.toInt v := by
  intro a b
  obtain ⟨c, hc, hnum⟩ : ∃ c : Circuit, c.Reached {} ∧ c.formula.numVars = 2 :=
    ⟨_, Circuit.Reached.start.step .newVariable, rfl⟩
  have hlength : a.length = b.length := rfl
  exact ⟨c, hc, hnum, hlength, exact_order hc hlength⟩

end Word

end BitUnroll
