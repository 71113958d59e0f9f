import BitUnroll.Proofs.Circuit.Growth
import BitUnroll.Symbols.Unrolled

/-!
# Fresh literals for variables

Allocation gives every bit of every variable in every timeframe an input of its own, and adds
nothing else to a circuit.

## Main definitions

* `Unrolled.Fresh`: different bits have different inputs of a netlist.
* `Unrolled.Sets`: a computation gives some bits fresh inputs.

## Main statements

* `Unrolled.sets_allocate`: the bits that allocation sets.
-/

namespace BitUnroll

namespace Unrolled

/-- The literals of a map are positive literals of inputs, different ones for different bits. -/
structure Fresh (m : Unrolled) (net : Netlist) : Prop where
  input : ∀ t name bit l, m.get? t name bit = some l →
    l.sign = true ∧ net[l.var]? = some .input
  injective : ∀ t name bit u other i l, m.get? t name bit = some l →
    m.get? u other i = some l → t = u ∧ name = other ∧ bit = i

variable {m : Unrolled} {net : Netlist}

theorem fresh_empty (net : Netlist) : empty.Fresh net where
  input t name bit l h := by simp at h
  injective t name bit u other i l h := by simp at h

theorem Fresh.var_lt (h : m.Fresh net) {t : Nat} {name : String} {bit : Nat} {l : Literal}
    (hl : m.get? t name bit = some l) : l.var < net.length :=
  (List.getElem?_eq_some_iff.1 (h.input t name bit l hl).2).1

theorem Fresh.mono {net' : Netlist} (h : m.Fresh net) (hnet : net <+: net') : m.Fresh net' where
  input t name bit l hl :=
    ⟨(h.input t name bit l hl).1, Netlist.getElem?_of_isPrefix hnet (h.input t name bit l hl).2⟩
  injective := h.injective

/-- One more bit with an input of its own. -/
theorem Fresh.set (h : m.Fresh net) (t : Nat) (name : String) (bit : Nat) :
    (m.set t name bit ⟨net.length, true⟩).Fresh (net ++ [.input]) where
  input u other i l hl := by
    rw [get?_set] at hl
    split at hl
    · obtain rfl := Option.some.inj hl
      simp
    · obtain ⟨hsign, hinput⟩ := h.input u other i l hl
      exact ⟨hsign, Netlist.getElem?_of_isPrefix (List.prefix_append ..) hinput⟩
  injective u other i u' other' i' l hl hl' := by
    rw [get?_set] at hl hl'
    split at hl <;> split at hl'
    · rename_i hold hnew
      obtain ⟨rfl, rfl, rfl⟩ := hold
      exact hnew
    · have := h.var_lt hl'
      rw [← Option.some.inj hl] at this
      exact absurd this (Nat.lt_irrefl _)
    · have := h.var_lt hl
      rw [← Option.some.inj hl'] at this
      exact absurd this (Nat.lt_irrefl _)
    · exact h.injective u other i u' other' i' l hl hl'

/-- Fresh literals can have the values of any trace. -/
theorem Fresh.exists_valuation (h : m.Fresh net) (trace : String → Nat → Nat → Bool) :
    ∃ v : Valuation, ∀ t name bit l, m.get? t name bit = some l → l.eval v = trace name bit t := by
  classical
  refine ⟨fun x => decide (∃ t name bit, m.get? t name bit = some ⟨x, true⟩ ∧
    trace name bit t = true), fun t name bit l hl => ?_⟩
  obtain ⟨x, sign⟩ := l
  obtain rfl : sign = true := (h.input t name bit _ hl).1
  rw [Literal.eval_positive, Bool.eq_iff_iff, decide_eq_true_iff]
  constructor
  · rintro ⟨u, other, i, hl', htrace⟩
    obtain ⟨rfl, rfl, rfl⟩ := h.injective _ _ _ _ _ _ _ hl hl'
    exact htrace
  · intro htrace
    exact ⟨t, name, bit, hl, htrace⟩

/-- Fresh literals can have the values of any trace where the netlist is followed. -/
theorem Fresh.exists_holds (h : m.Fresh net) (hnet : net.Ordered)
    (trace : String → Nat → Nat → Bool) :
    ∃ v, net.Holds v ∧ ∀ t name bit l, m.get? t name bit = some l →
      l.eval v = trace name bit t := by
  obtain ⟨v, hv⟩ := h.exists_valuation trace
  refine ⟨net.settle v, Netlist.holds_settle hnet v, fun t name bit l hl => ?_⟩
  rw [← hv t name bit l hl, Literal.eval, Literal.eval,
    Netlist.settle_of_input v (h.input t name bit l hl).2]

/-- From a map of fresh literals, a computation leads to another one by adding inputs to the
circuit, and the bits with literals are those before and those that are told. -/
def Sets (m : Unrolled) (x : Build Unrolled) (bits : Nat → String → Nat → Prop) : Prop :=
  ∀ net c required, c.Fits net required → m.Fresh net → ∃ net', net <+: net' ∧
    (x.run c).2.Fits net' required ∧ (x.run c).1.Fresh net' ∧
      ∀ t name bit, ((x.run c).1.get? t name bit).isSome ↔
        (m.get? t name bit).isSome ∨ bits t name bit

theorem Sets.pure (m : Unrolled) : Sets m (Pure.pure m) fun _ _ _ => False :=
  fun net _ _ hc hm => ⟨net, List.prefix_rfl, hc, hm, fun _ _ _ => (iff_of_eq (or_false _)).symm⟩

/-- A sequence sets the bits that its parts set. -/
theorem Sets.bind {x : Build Unrolled} {f : Unrolled → Build Unrolled}
    {bits bits' : Nat → String → Nat → Prop} (hx : Sets m x bits)
    (hf : ∀ m', Sets m' (f m') bits') :
    Sets m (x >>= f) fun t name bit => bits t name bit ∨ bits' t name bit := by
  intro net c required hc hm
  obtain ⟨net₁, h₁, hfits₁, hfresh₁, hbits₁⟩ := hx net c required hc hm
  obtain ⟨net₂, h₂, hfits₂, hfresh₂, hbits₂⟩ := hf _ net₁ _ required hfits₁ hfresh₁
  refine ⟨net₂, h₁.trans h₂, hfits₂, hfresh₂, fun t name bit => ?_⟩
  rw [← or_assoc, ← hbits₁]
  exact hbits₂ t name bit

/-- A fresh literal for one bit. -/
theorem sets_fresh (m : Unrolled) (t : Nat) (name : String) (bit : Nat) :
    Sets m (do return m.set t name bit (← Circuit.fresh)) fun u other i =>
      t = u ∧ name = other ∧ bit = i := by
  intro net c required hc hm
  obtain ⟨hout, hfits⟩ := hc.fresh
  refine ⟨net ++ [Source.input], List.prefix_append .., hfits, ?_, fun u other i => ?_⟩
  · show (m.set t name bit (Circuit.fresh c).1).Fresh _
    rw [hout]
    exact hm.set t name bit
  · show ((m.set t name bit _).get? u other i).isSome ↔ _
    rw [get?_set]
    split <;> simp_all

/-- The same bits in other words. -/
theorem Sets.congr {x : Build Unrolled} {bits bits' : Nat → String → Nat → Prop}
    (hx : Sets m x bits) (h : ∀ t name bit, bits t name bit ↔ bits' t name bit) :
    Sets m x bits' := by
  obtain rfl : bits = bits' := funext fun t => funext fun name => funext fun bit =>
    propext (h t name bit)
  exact hx

/-- What a loop sets is what its rounds set. -/
theorem Sets.foldlM {β : Type} {f : Unrolled → β → Build Unrolled}
    {bits : β → Nat → String → Nat → Prop} (hf : ∀ m x, Sets m (f m x) (bits x)) (xs : List β)
    (m : Unrolled) : Sets m (xs.foldlM f m) fun t name bit => ∃ x ∈ xs, bits x t name bit := by
  induction xs generalizing m with
  | nil => exact (Sets.pure m).congr fun t name bit => by simp
  | cons x xs ih =>
    rw [List.foldlM_cons]
    exact ((hf m x).bind ih).congr fun t name bit => by simp

/-! ## Allocation -/

theorem sets_allocateBits (t : Nat) (name : String) (bit count : Nat) (m : Unrolled) :
    Sets m (allocateBits t name bit count m) fun u other i =>
      t = u ∧ name = other ∧ bit ≤ i ∧ i < bit + count := by
  induction count generalizing bit m with
  | zero =>
    refine (Sets.pure m).congr fun u other i => ⟨False.elim, ?_⟩
    rintro ⟨-, -, hle, hlt⟩
    omega
  | succ count ih =>
    refine ((sets_fresh m t name bit).bind fun m' => ih (bit + 1) m').congr fun u other i => ?_
    constructor
    · rintro (⟨rfl, rfl, rfl⟩ | ⟨rfl, rfl, hle, hlt⟩)
      · exact ⟨rfl, rfl, Nat.le_refl _, by omega⟩
      · exact ⟨rfl, rfl, by omega, by omega⟩
    · rintro ⟨rfl, rfl, hle, hlt⟩
      by_cases h : bit = i
      · exact .inl ⟨rfl, rfl, h⟩
      · exact .inr ⟨rfl, rfl, by omega, by omega⟩

theorem sets_allocateVars (t : Nat) (vars : List (String × Nat)) (m : Unrolled) :
    Sets m (allocateVars t vars m) fun u other i =>
      t = u ∧ ∃ width, (other, width) ∈ vars ∧ i < width := by
  refine (Sets.foldlM (fun m (x : String × Nat) => sets_allocateBits t x.1 0 x.2 m) vars m).congr
    fun u other i => ?_
  constructor
  · rintro ⟨⟨name, width⟩, hmem, rfl, rfl, -, hlt⟩
    exact ⟨rfl, width, hmem, by omega⟩
  · rintro ⟨rfl, width, hmem, hlt⟩
    exact ⟨(other, width), hmem, rfl, rfl, Nat.zero_le _, by omega⟩

/-- Allocation sets the bits of all variables in all timeframes below the bound. -/
theorem sets_allocate (vars : List (String × Nat)) (timeframes : Nat) :
    Sets empty (allocate vars timeframes) fun t name bit =>
      t < timeframes ∧ ∃ width, (name, width) ∈ vars ∧ bit < width := by
  refine (Sets.foldlM (fun m t => sets_allocateVars t vars m) (List.range timeframes) empty).congr
    fun t name bit => ?_
  simp

end Unrolled

end BitUnroll
