import BitUnroll.Proofs.Word.Circuits

/-!
# Constants and resizing

A constant word has the bits of its number at every width, also far beyond the range of the number.
Cutting or extending a word keeps its value modulo the width, the unsigned value where it is filled
with zeros and the two's complement value where it is filled with its last bit. No gate is built for
either, so the constants of a number correspond literal by literal.

## Main statements

* `Word.resize_map_ofBool`, `Word.resize_ofInt`: resizing constants.
* `Word.resize_resize`: extending a word and cutting it back.
* `Word.exact_resizing`: constants and resizing are exact.
-/

namespace BitUnroll

namespace Word

/-- The literals of a number, one by one. Those beyond the range of the number repeat its sign. -/
theorem getElem?_ofInt {width i limit : Nat} (h : i < width) {n : Int} (hlow : -2 ^ limit ≤ n)
    (hhigh : n < 2 ^ limit) :
    (ofInt width n)[i]? =
      some (.ofBool (if i < limit then n / 2 ^ i % 2 == 1 else n < 0)) := by
  rw [ofInt, List.getElem?_map]
  split
  · rw [Bits.getElem?_ofInt h]
    rfl
  · rw [Bits.getElem?_ofInt_of_le h (by omega) hlow hhigh]
    rfl

/-- Cutting a word or extending it with zeros keeps its unsigned value, modulo the width. -/
theorem toNat_resize {v : Valuation} (hv : v 0 = true) (a : Word) (width : Nat) :
    (a.resize width false).toNat v = a.toNat v % 2 ^ width := by
  have h : ((a.resize width false).toNat v : Int) = a.toNat v % 2 ^ width := by
    rw [toNat, bits_resize hv, Bits.toNat_ofInt]
    rfl
  exact_mod_cast h

/-- Cutting a word or extending it with its sign keeps its signed value, modulo the width. The
constants are not read here. -/
theorem toNat_resize_signed {a : Word} (ha : a ≠ []) (width : Nat) (v : Valuation) :
    ((a.resize width true).toNat v : Int) = a.toInt v % 2 ^ width := by
  rw [toNat, bits_resize_of_extension (eval_extension ha v), Bits.toNat_ofInt]
  rfl

/-- The constants of bits, cut or extended, are those of the bits' value. -/
theorem resize_map_ofBool (b : Bits) (width : Nat) (signed : Bool) :
    resize (b.map .ofBool) width signed = ofInt width (b.value signed) := by
  have hextension : extension signed (b.map .ofBool) = .ofBool (signed && b.getLastD false) := by
    cases signed with
    | false => rfl
    | true =>
      rcases List.eq_nil_or_concat b with rfl | ⟨b, p, rfl⟩
      · rfl
      · simp [extension]
  rw [resize, hextension, ofInt, Bits.ofInt_value, List.map_append, List.map_take,
    List.map_replicate, List.length_map]

/-- A number that is in the range of a signed word is the same constant at every width, as if that
word was resized. -/
theorem resize_ofInt {k : Nat} (hk : 0 < k) {n : Int} (hlow : -2 ^ (k - 1) ≤ n)
    (hhigh : n < 2 ^ (k - 1)) (width : Nat) :
    (ofInt k n).resize width true = ofInt width n := by
  obtain ⟨k, rfl⟩ := Nat.exists_eq_add_of_lt hk
  have hvalue : (Bits.ofInt (0 + k + 1) n).value true = n := by
    show (Bits.ofInt (0 + k + 1) n).toInt = n
    have hcast : (2 : Int) ^ k = (2 ^ k : Nat) := by push_cast; rfl
    simp only [Nat.zero_add, Nat.add_sub_cancel, hcast] at hlow hhigh ⊢
    rw [Bits.toInt_ofInt, Nat.pow_succ', Int.bmod_eq_of_le] <;> omega
  rw [ofInt, resize_map_ofBool, hvalue]

/-- What was extended is cut back to what it was. -/
theorem resize_resize {a : Word} {width : Nat} (h : a.length ≤ width) (up down : Bool) :
    (a.resize width up).resize a.length down = a := by
  rw [resize, length_resize, Nat.sub_eq_zero_of_le h, List.replicate_zero, List.append_nil, resize,
    List.take_of_length_le h, List.take_left]

/-- **Constants and resizing are exact.** The constant word of a number has that number as its
value, modulo two to the power of its width, and if 128 bits hold the number, then the literals from
the last of these on are all its sign. A word that is resized keeps its value modulo two to the
power of the new width, the unsigned value if it is filled with zeros and the two's complement value
if it has bits and is filled with the last one. So a signed constant is resized to the constant of
the same number, if its own width holds that number, and a word that is extended either way and then
cut back either way is the same word again. Assignments are those that give the constant variable
its value, as every model does, where the literals of constants are read. -/
theorem exact_resizing (a : Word) (width : Nat) (n : Int) :
    (∀ v, v 0 = true → ((ofInt width n).toNat v : Int) = n % 2 ^ width) ∧
    (-2 ^ 127 ≤ n → n < 2 ^ 127 → ∀ i < width, (ofInt width n)[i]? =
      some (.ofBool (if i < 127 then n / 2 ^ i % 2 == 1 else n < 0))) ∧
    (∀ v, v 0 = true → (a.resize width false).toNat v = a.toNat v % 2 ^ width) ∧
    (a ≠ [] → ∀ v, ((a.resize width true).toNat v : Int) = a.toInt v % 2 ^ width) ∧
    (∀ k, 0 < k → -2 ^ (k - 1) ≤ n → n < 2 ^ (k - 1) →
      (ofInt k n).resize width true = ofInt width n) ∧
    (a.length ≤ width → ∀ up down, (a.resize width up).resize a.length down = a) :=
  ⟨fun _ hv => toNat_ofInt hv width n, fun hlow hhigh _ hi => getElem?_ofInt hi hlow hhigh,
    fun _ hv => toNat_resize hv a width, fun ha v => toNat_resize_signed ha width v,
    fun _ hk hlow hhigh => resize_ofInt hk hlow hhigh width,
    fun h up down => resize_resize h up down⟩

/-- The least number of 128 bits at a width of 200, and a word of two variables, as -2. -/
theorem exact_resizing_least :
    let n : Int := -2 ^ 127
    let a : Word := [⟨1, true⟩, ⟨2, true⟩]
    let v : Valuation := fun x => x ≠ 1
    ((ofInt 200 n).toNat v : Int) = n % 2 ^ 200 ∧
    (ofInt 200 n)[126]? = some .bottom ∧ (ofInt 200 n)[199]? = some .top ∧
    (a.resize 200 false).toNat v = 2 ∧ ((a.resize 200 true).toNat v : Int) = 2 ^ 200 - 2 ∧
    (ofInt 128 n).resize 200 true = ofInt 200 n ∧ (a.resize 200 true).resize 2 false = a := by
  intro n a v
  obtain ⟨hconstant, hliterals, hunsigned, hsigned, hresize, hback⟩ := exact_resizing a 200 n
  have hliterals := hliterals (by decide) (by decide)
  refine ⟨hconstant v rfl, hliterals 126 (by decide), hliterals 199 (by decide),
    hunsigned v rfl, ?_, hresize 128 (by decide) (by decide) (by decide),
    hback (by decide) true false⟩
  exact hsigned (List.cons_ne_nil _ _) v

end Word

end BitUnroll
