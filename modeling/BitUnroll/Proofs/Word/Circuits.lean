import BitUnroll.Proofs.Circuit.Denotation
import BitUnroll.Proofs.Word.Bits
import BitUnroll.Word.Arithmetic
import Mathlib.Data.Int.ModEq

/-!
# What the circuits of words compute

Each operation on words adds gates only, and the word or the literal that it hands out stands for
the operation on the numbers of its operands, cut to their width. Where the operands have different
lengths an operation adds nothing.

## Main definitions

* `Word.Gated.AddsGates`: what an operation that lengths may stop adds, and what is known of its
  result.

## Main statements

* `Word.addsGates_add`, `Word.addsGates_sub`, `Word.addsGates_negate`, `Word.addsGates_mul`:
  arithmetic.
* `Word.addsGates_equal`, `Word.addsGates_lessThan`: comparison.
* `Word.bits_resize`: extension and truncation.
-/

namespace BitUnroll

namespace Word

open Build (AddsGates)

variable {α β : Type} {net : Netlist} {a b w : Word}

/-- On every circuit that fits a netlist, an operation adds nothing but gates, and its result, if
there is one, has a property. -/
def Gated.AddsGates (net : Netlist) (x : Gated α) (post : α → Netlist → Prop) : Prop :=
  Build.AddsGates net x.run fun r net' => ∀ y, r = .ok y → post y net'

theorem Gated.AddsGates.lift {x : Build α} {post : α → Netlist → Prop}
    (h : Build.AddsGates net x post) : Gated.AddsGates net (liftM x) post :=
  Build.AddsGates.map (y := Except.ok) h fun _ _ _ hy _ hz => Except.ok.inj hz ▸ hy

/-- Operations on words one after the other. -/
theorem Gated.AddsGates.bind {x : Gated α} {f : α → Gated β} {mid : α → Netlist → Prop}
    {post : β → Netlist → Prop} (hx : Gated.AddsGates net x mid)
    (hf : ∀ y net', net <+: net' → mid y net' → Gated.AddsGates net' (f y) post) :
    Gated.AddsGates net (x >>= f) post := by
  unfold Gated.AddsGates
  rw [ExceptT.run_bind]
  refine Build.AddsGates.bind hx fun r net' h hr => ?_
  cases r with
  | ok y => exact hf y net' h (hr y rfl)
  | error lengths => exact .pure fun _ hz => nomatch hz

theorem Gated.AddsGates.imp {x : Gated α} {mid post : α → Netlist → Prop}
    (hx : Gated.AddsGates net x mid) (h : ∀ y net', net <+: net' → mid y net' → post y net') :
    Gated.AddsGates net x post :=
  Build.AddsGates.imp hx fun _ net' hle hr y hy => h y net' hle (hr y hy)

/-- An operation on two words adds what it adds to words of one length. -/
theorem addsGates_aligned {x : Build α} {post : α → Netlist → Prop}
    (h : a.length = b.length → AddsGates net x post) :
    Gated.AddsGates net (aligned a b x) post := by
  by_cases hlen : a.length = b.length
  · rw [aligned, if_neg (not_not_intro hlen)]
    exact .lift (h hlen)
  · have hrun : (aligned a b x).run = pure (.error ⟨a.length, b.length⟩) := by
      rw [aligned, if_pos hlen]
      rfl
    rw [Gated.AddsGates, hrun]
    exact .pure fun y hy => by cases hy

/-! ## Bit by bit -/

/-- One gate for each bit. -/
theorem addsGates_mapM {f : Literal → Build Literal} {t : Valuation → Bool → Bool}
    (hf : ∀ net' x, net <+: net' → x.var < net'.length →
      AddsGates net' (f x) fun l net'' => l.Denotes net'' fun v => t v (x.eval v))
    (ha : a.Within net) :
    AddsGates net (a.mapM f) fun (w : Word) net' =>
      w.length = a.length ∧ w.Denotes net' fun v => (a.bits v).map (t v) := by
  induction a generalizing net with
  | nil => exact .pure ⟨rfl, denotes_nil⟩
  | cons x a ih =>
    obtain ⟨hx, ha⟩ := within_cons.1 ha
    rw [List.mapM_cons]
    refine (hf net x List.prefix_rfl hx).bind fun l net₁ h₁ hl => ?_
    refine (ih (fun net' y h => hf net' y (h₁.trans h)) (ha.mono h₁)).bind
      fun w net₂ h₂ ⟨hlength, hw⟩ => .pure ⟨congrArg (· + 1) hlength, ?_⟩
    exact Denotes.cons (hl.mono h₂) hw

/-- One gate for each pair of bits. -/
theorem addsGates_zipGates {f : Literal → Literal → Build Literal}
    {t : Valuation → Bool → Bool → Bool}
    (hf : ∀ net' x y, net <+: net' → x.var < net'.length → y.var < net'.length →
      AddsGates net' (f x y) fun l net'' => l.Denotes net'' fun v => t v (x.eval v) (y.eval v))
    (ha : a.Within net) (hb : b.Within net) :
    AddsGates net (zipGates f a b) fun w net' =>
      w.Denotes net' fun v => (a.bits v).zipWith (t v) (b.bits v) := by
  induction a generalizing b net with
  | nil => exact .pure denotes_nil
  | cons x a ih =>
    cases b with
    | nil => exact .pure ⟨within_nil, fun v _ => by simp⟩
    | cons y b =>
      obtain ⟨hx, ha⟩ := within_cons.1 ha
      obtain ⟨hy, hb⟩ := within_cons.1 hb
      refine (hf net x y List.prefix_rfl hx hy).bind fun l net₁ h₁ hl => ?_
      refine (ih (fun net' x y h => hf net' x y (h₁.trans h)) (ha.mono h₁) (hb.mono h₁)).bind
        fun w net₂ h₂ hw => .pure ?_
      exact Denotes.cons (hl.mono h₂) hw

theorem addsGates_bitwise {f : Literal → Literal → Build Literal} {t : Bool → Bool → Bool}
    (hf : Circuit.Computes f t) (ha : a.Within net) (hb : b.Within net) :
    Gated.AddsGates net (bitwise f a b) fun w net' =>
      w.Denotes net' fun v => (a.bits v).zipWith t (b.bits v) :=
  addsGates_aligned fun _ => addsGates_zipGates (fun net' x y _ => hf net' x y) ha hb

theorem zipWith_ite {p q : Bits} (hlen : p.length = q.length) (condition : Bool) :
    p.zipWith (fun x y => if condition then x else y) q = if condition then p else q := by
  induction p generalizing q with
  | nil => cases q <;> simp at hlen ⊢
  | cons x p ih =>
    cases q with
    | nil => simp at hlen
    | cons y q =>
      rw [List.zipWith_cons_cons, ih (Nat.succ.inj hlen)]
      split <;> rfl

theorem addsGates_mux {condition : Literal} (hc : condition.var < net.length)
    (ha : a.Within net) (hb : b.Within net) :
    Gated.AddsGates net (mux condition a b) fun w net' =>
      w.Denotes net' fun v => if condition.eval v then a.bits v else b.bits v := by
  refine addsGates_aligned fun hlen => (addsGates_zipGates (fun net' x y h hx hy =>
    Circuit.addsGates_select (Nat.lt_of_lt_of_le hc h.length_le) hx hy) ha hb).imp
      fun w net' _ hw => ⟨hw.within, fun v hv => ?_⟩
  rw [hw.bits_eq v hv, zipWith_ite (by simp [hlen])]

/-! ## Sums -/

theorem addsGates_fullAdder {x y carry : Literal} (hx : x.var < net.length)
    (hy : y.var < net.length) (hc : carry.var < net.length) :
    AddsGates net (fullAdder x y carry) fun out net' =>
      out.1.Denotes net' (fun v => x.eval v ^^ y.eval v ^^ carry.eval v) ∧
      out.2.Denotes net' (fun v =>
        (x.eval v && y.eval v) || (carry.eval v && (x.eval v ^^ y.eval v))) := by
  refine (Circuit.computes_xor net x y hx hy).bind fun half net₁ h₁ hhalf => ?_
  have hle₁ := h₁.length_le
  refine (Circuit.computes_xor net₁ half carry hhalf.lt (by omega)).bind
    fun sum net₂ h₂ hsum => ?_
  have hle₂ := h₂.length_le
  refine (Circuit.computes_and net₂ x y (by omega) (by omega)).bind fun both net₃ h₃ hboth => ?_
  have hle₃ := h₃.length_le
  have hhalf := hhalf.mono (h₂.trans h₃)
  refine (Circuit.computes_and net₃ carry half (by omega) hhalf.lt).bind
    fun passed net₄ h₄ hpassed => ?_
  have hboth := hboth.mono h₄
  refine (Circuit.computes_or net₄ both passed hboth.lt hpassed.lt).bind
    fun out net₅ h₅ hout => .pure ⟨?_, hout.lt, fun v hv => ?_⟩
  · have hsum := hsum.mono (h₃.trans (h₄.trans h₅))
    refine ⟨hsum.lt, fun v hv => ?_⟩
    rw [hsum.eval_eq v hv, (hhalf.mono (h₄.trans h₅)).eval_eq v hv]
  · rw [hout.eval_eq v hv, (hboth.mono h₅).eval_eq v hv, (hpassed.mono h₅).eval_eq v hv,
      (hhalf.mono (h₄.trans h₅)).eval_eq v hv]

/-- The sum of two words and a carry. -/
theorem addsGates_ripple {carry : Literal} (hlen : a.length = b.length)
    (hc : carry.var < net.length) (ha : a.Within net) (hb : b.Within net) :
    AddsGates net (ripple carry a b) fun w net' => w.length = a.length ∧ w.Denotes net' fun v =>
      .ofInt a.length (a.toNat v + b.toNat v + (carry.eval v).toNat) := by
  induction a generalizing b carry net with
  | nil => exact .pure ⟨rfl, within_nil, fun _ _ => rfl⟩
  | cons x a ih =>
    cases b with
    | nil => simp at hlen
    | cons y b =>
      obtain ⟨hx, ha⟩ := within_cons.1 ha
      obtain ⟨hy, hb⟩ := within_cons.1 hb
      refine (addsGates_fullAdder hx hy hc).bind fun out net₁ h₁ ⟨hsum, hcarry⟩ => ?_
      refine (ih (Nat.succ.inj hlen) hcarry.lt (ha.mono h₁) (hb.mono h₁)).bind
        fun w net₂ h₂ ⟨hlength, hw⟩ => .pure ⟨congrArg (· + 1) hlength,
          within_cons.2 ⟨(hsum.mono h₂).lt, hw.within⟩, fun v hv => ?_⟩
      have hvalue : ((toNat (x :: a) v : Int) + toNat (y :: b) v + (carry.eval v).toNat) =
          (x.eval v ^^ y.eval v ^^ carry.eval v).toNat +
            2 * (toNat a v + toNat b v + (out.2.eval v).toNat) := by
        rw [(hcarry.mono h₂).eval_eq v hv, toNat_cons, toNat_cons]
        cases x.eval v <;> cases y.eval v <;> cases carry.eval v <;> simp <;> omega
      rw [bits_cons, (hsum.mono h₂).eval_eq v hv, hw.bits_eq v hv, hvalue, List.length_cons,
        Bits.ofInt_bit]

theorem addsGates_add {carry : Literal} (hc : carry.var < net.length) (ha : a.Within net)
    (hb : b.Within net) : Gated.AddsGates net (add a b carry) fun w net' =>
      w.Denotes net' fun v =>
        .ofInt a.length (a.toNat v + b.toNat v + (carry.eval v).toNat) :=
  addsGates_aligned fun hlen => (addsGates_ripple hlen hc ha hb).imp fun _ _ _ hw => hw.2

/-- The complement and one make a difference of a sum. -/
theorem addsGates_sub (hnet : net[0]? = some .constant) (ha : a.Within net) (hb : b.Within net) :
    Gated.AddsGates net (sub a b) fun w net' =>
      w.Denotes net' fun v => .ofInt a.length (a.toNat v - b.toNat v) := by
  have htop := (Literal.denotes_top hnet).lt
  refine addsGates_aligned fun hlen => (addsGates_ripple hlen htop ha
    (within_complement.2 hb)).imp fun w net' h ⟨_, hw⟩ => ⟨hw.within, fun v hv => ?_⟩
  have hone : v 0 = true := hv 0 _ (Netlist.getElem?_of_isPrefix h hnet)
  have hcomplement := Bits.toNat_complement (b.bits v)
  rw [length_complement] at hlen
  rw [length_bits, ← hlen] at hcomplement
  rw [hw.bits_eq v hv, toNat, toNat, toNat, bits_complement]
  apply Bits.ofInt_congr
  have hvalue : ((a.bits v).toNat : Int) + Bits.toNat ((b.bits v).map (!·)) +
      (Literal.top.eval v).toNat = (a.bits v).toNat - (b.bits v).toNat + 2 ^ a.length := by
    have hcast := congrArg (Nat.cast : Nat → Int) hcomplement
    push_cast at hcast
    rw [Literal.eval_top hone, Bool.toNat_true]
    push_cast
    omega
  rw [hvalue, Int.add_emod_right]

theorem bits_zero {v : Valuation} (hv : v 0 = true) (width : Nat) :
    (zero width).bits v = .ofInt width 0 := by
  rw [Bits.ofInt_zero]
  simp [zero, bits, Literal.eval_bottom hv]

theorem toNat_zero {v : Valuation} (hv : v 0 = true) (width : Nat) : (zero width).toNat v = 0 := by
  have h := Bits.toNat_ofInt width 0
  rw [toNat, bits_zero hv]
  simpa using h

theorem within_zero (hnet : net[0]? = some .constant) (width : Nat) : (zero width).Within net := by
  intro l hl
  obtain rfl := (List.mem_replicate.1 hl).2
  exact (Literal.denotes_bottom hnet).lt

/-- The word of a number denotes the number's bits. -/
theorem denotes_ofInt (hnet : net[0]? = some .constant) (width : Nat) (n : Int) :
    (ofInt width n).Denotes net fun _ => .ofInt width n := by
  refine ⟨fun l hl => ?_, fun v hv => bits_ofInt (hv 0 _ hnet) width n⟩
  obtain ⟨value, -, rfl⟩ := List.mem_map.1 hl
  exact (Literal.denotes_ofBool hnet value).lt

theorem addsGates_negate (hnet : net[0]? = some .constant) (ha : a.Within net) :
    Gated.AddsGates net (negate a) fun w net' =>
      w.Denotes net' fun v => .ofInt a.length (-(a.toNat v)) := by
  refine (addsGates_sub hnet (within_zero hnet a.length) ha).imp fun w net' h hw =>
    ⟨hw.within, fun v hv => ?_⟩
  have hone : v 0 = true := hv 0 _ (Netlist.getElem?_of_isPrefix h hnet)
  rw [hw.bits_eq v hv, toNat_zero hone, length_zero]
  simp

/-! ## Products -/

theorem bits_take (a : Word) (width : Nat) (v : Valuation) :
    bits (a.take width) v = (a.bits v).take width := List.map_take

/-- A word moved up and taken where a bit is true. -/
theorem addsGates_product {bit : Literal} (hnet : net[0]? = some .constant)
    (hbit : bit.var < net.length) (ha : a.Within net) (shift : Nat) :
    AddsGates net (product a shift bit) fun w net' => w.length = a.length ∧ w.Denotes net' fun v =>
      .ofInt a.length (2 ^ shift * (a.toNat v * (bit.eval v).toNat)) := by
  have htake : Within net (a.take (a.length - shift)) := fun l hl => ha l (List.mem_of_mem_take hl)
  refine (addsGates_mapM (fun net' x h hx => Circuit.computes_and net' bit x
    (Nat.lt_of_lt_of_le hbit h.length_le) hx) htake).bind
      fun w net' h ⟨hlength, hw⟩ => .pure ⟨?_, ?_, fun v hv => ?_⟩
  · rw [List.length_append, length_zero, hlength, List.length_take]
    omega
  · exact within_append.2
      ⟨within_zero (Netlist.getElem?_of_isPrefix h hnet) _, hw.within⟩
  · have hone : v 0 = true := hv 0 _ (Netlist.getElem?_of_isPrefix h hnet)
    rw [bits_append, hw.bits_eq v hv, bits_zero hone, Bits.ofInt_zero, Bits.ofInt_two_pow_mul,
      bits_take]
    congr 1
    exact Bits.map_and_take (by simp) (bit.eval v)

/-- The sum of a word and the products of another one with the bits of a third. -/
theorem addsGates_sumProducts {sum : Word} (hnet : net[0]? = some .constant)
    (hlen : sum.length = a.length) (ha : a.Within net) (hsum : sum.Within net) (hb : b.Within net)
    (shift : Nat) : Gated.AddsGates net (sumProducts a shift sum b) fun w net' =>
      w.Denotes net' fun v =>
        .ofInt a.length (sum.toNat v + 2 ^ shift * (a.toNat v * b.toNat v)) := by
  induction b generalizing sum shift net with
  | nil =>
    refine .lift (.pure ⟨hsum, fun v _ => ?_⟩)
    have h := Bits.ofInt_toNat (sum.bits v)
    rw [length_bits, hlen] at h
    simp [toNat, h]
  | cons bit b ih =>
    obtain ⟨hbit, hb⟩ := within_cons.1 hb
    refine (Gated.AddsGates.lift (addsGates_product hnet hbit ha shift)).bind
      fun term net₁ h₁ hproduct => ?_
    obtain ⟨hterm, hdenotes⟩ := hproduct
    have hnet₁ := Netlist.getElem?_of_isPrefix h₁ hnet
    have hbottom := (Literal.denotes_bottom hnet₁).lt
    refine (addsGates_aligned fun hlengths =>
      addsGates_ripple hlengths hbottom (hsum.mono h₁) hdenotes.within).bind
        fun sum' net₂ h₂ hripple => ?_
    obtain ⟨hlen', hsum'⟩ := hripple
    have hnet₂ := Netlist.getElem?_of_isPrefix h₂ hnet₁
    have h₁₂ := h₁.trans h₂
    refine (ih hnet₂ (hlen'.trans hlen) (ha.mono h₁₂) hsum'.within (hb.mono h₁₂) (shift + 1)).imp
      fun w net' h hw => ⟨hw.within, fun v hv => ?_⟩
    have hone : v 0 = true := hv 0 _ (Netlist.getElem?_of_isPrefix h hnet₂)
    have hbottom := Literal.eval_bottom hone
    have hterm : (term.toNat v : Int) ≡ 2 ^ shift * (toNat a v * (bit.eval v).toNat)
        [ZMOD 2 ^ a.length] := by
      rw [toNat, (hdenotes.mono (h₂.trans h)).bits_eq v hv, Bits.toNat_ofInt]
      exact Int.mod_modEq ..
    have hsum : (sum'.toNat v : Int) ≡ sum.toNat v + term.toNat v [ZMOD 2 ^ a.length] := by
      rw [toNat, (hsum'.mono h).bits_eq v hv, Bits.toNat_ofInt, hlen, hbottom]
      simpa using Int.mod_modEq ..
    rw [hw.bits_eq v hv]
    apply Bits.ofInt_congr
    calc (sum'.toNat v : Int) + 2 ^ (shift + 1) * (toNat a v * toNat b v)
      _ ≡ sum.toNat v + term.toNat v + 2 ^ (shift + 1) * (toNat a v * toNat b v)
          [ZMOD 2 ^ a.length] := hsum.add_right _
      _ ≡ sum.toNat v + 2 ^ shift * (toNat a v * (bit.eval v).toNat) +
          2 ^ (shift + 1) * (toNat a v * toNat b v) [ZMOD 2 ^ a.length] :=
        (hterm.add_left _).add_right _
      _ = sum.toNat v + 2 ^ shift * (toNat a v * toNat (bit :: b) v) := by
        rw [toNat_cons, Int.pow_succ]
        push_cast
        ring

theorem addsGates_mul (hnet : net[0]? = some .constant) (ha : a.Within net) (hb : b.Within net) :
    Gated.AddsGates net (mul a b) fun w net' =>
      w.Denotes net' fun v => .ofInt a.length (a.toNat v * b.toNat v) := by
  have haligned : Gated.AddsGates net (aligned a b (return ())) fun _ _ => True :=
    addsGates_aligned fun _ => .pure trivial
  refine haligned.bind fun _ net₁ h₁ _ => ?_
  have hnet₁ := Netlist.getElem?_of_isPrefix h₁ hnet
  refine (addsGates_sumProducts hnet₁ (length_zero _) (ha.mono h₁) (within_zero hnet₁ _)
    (hb.mono h₁) 0).imp fun w net' h hw => ⟨hw.within, fun v hv => ?_⟩
  have hone : v 0 = true := hv 0 _ (Netlist.getElem?_of_isPrefix h hnet₁)
  rw [hw.bits_eq v hv, toNat_zero hone]
  simp

/-! ## Comparisons -/

theorem all_zipWith_beq {p q : Bits} (hlen : p.length = q.length) :
    (p.zipWith (· == ·) q).all id = (p == q) := by
  induction p generalizing q with
  | nil => cases q <;> simp at hlen ⊢
  | cons x p ih =>
    cases q with
    | nil => simp at hlen
    | cons y q =>
      rw [List.zipWith_cons_cons, List.all_cons, ih (Nat.succ.inj hlen)]
      rfl

theorem addsGates_equal (hnet : net[0]? = some .constant) (ha : a.Within net) (hb : b.Within net) :
    Gated.AddsGates net (equal a b) fun l net' => l.Denotes net' fun v => a.bits v == b.bits v := by
  refine addsGates_aligned fun hlen => (addsGates_zipGates (fun net' x y _ =>
    Circuit.computes_iff net' x y) ha hb).bind fun w net₁ h₁ hw => ?_
  refine (Circuit.addsGates_andAll (Netlist.getElem?_of_isPrefix h₁ hnet) hw.within).imp
    fun l net' h hl => ⟨hl.lt, fun v hv => ?_⟩
  have hbits : w.map (·.eval v) = (a.bits v).zipWith (· == ·) (b.bits v) :=
    (hw.mono h).bits_eq v hv
  rw [hl.eval_eq v hv, hbits, all_zipWith_beq (by simp [hlen])]

/-- The values of pairs of literals. -/
def pairBits (ps : List (Literal × Literal)) (v : Valuation) : List (Bool × Bool) :=
  ps.map fun p => (p.1.eval v, p.2.eval v)

/-- One of the terms is true if all earlier pairs agree and the left side is less. -/
theorem addsGates_lessTerms {agree : Literal} {ps : List (Literal × Literal)}
    (hagree : agree.var < net.length)
    (hps : ∀ p ∈ ps, p.1.var < net.length ∧ p.2.var < net.length) :
    AddsGates net (lessTerms agree ps) fun (w : Word) net' => w.Within net' ∧
      ∀ v, net'.Holds v → (w.bits v).any id = (agree.eval v && Bits.less (pairBits ps v)) := by
  induction ps generalizing agree net with
  | nil => exact .pure ⟨within_nil, fun v _ => by simp [pairBits, Bits.less]⟩
  | cons p ps ih =>
    obtain ⟨x, y⟩ := p
    have hx : x.var < net.length := (hps _ List.mem_cons_self).1
    have hy : y.var < net.length := (hps _ List.mem_cons_self).2
    refine (Circuit.computes_and net (-x) y hx hy).bind fun less net₁ h₁ hless => ?_
    have hle₁ := h₁.length_le
    refine (Circuit.computes_and net₁ agree less (by omega) hless.lt).bind
      fun term net₂ h₂ hterm => ?_
    have hle₂ := h₂.length_le
    refine (Circuit.computes_iff net₂ x y (by omega) (by omega)).bind fun same net₃ h₃ hsame => ?_
    have hle₃ := h₃.length_le
    refine (Circuit.computes_and net₃ agree same (by omega) hsame.lt).bind
      fun agree' net₄ h₄ hagree' => ?_
    have hle₄ := h₄.length_le
    refine (ih hagree'.lt fun p hp => ?_).bind fun w net₅ h₅ hrest => .pure ⟨?_, fun v hv => ?_⟩
    · have := hps p (List.mem_cons_of_mem _ hp)
      omega
    · exact within_cons.2 ⟨(hterm.mono (h₃.trans (h₄.trans h₅))).lt, hrest.1⟩
    · have hany := hrest.2 v hv
      have hterm := (hterm.mono (h₃.trans (h₄.trans h₅))).eval_eq v hv
      have hless := (hless.mono (h₂.trans (h₃.trans (h₄.trans h₅)))).eval_eq v hv
      have hsame := (hsame.mono (h₄.trans h₅)).eval_eq v hv
      have hagree' := (hagree'.mono h₅).eval_eq v hv
      rw [bits_cons, List.any_cons, hany, hterm, hless, hagree', hsame, Literal.eval_neg]
      simp only [pairBits, List.map_cons, Bits.less, id]
      cases agree.eval v <;> rfl

/-- The order of pairs of bits is the order of values. -/
theorem less_orderPairs (signed : Bool) (hlen : a.length = b.length) (v : Valuation) :
    Bits.less (pairBits (orderPairs signed a b) v) =
      decide ((a.bits v).value signed < (b.bits v).value signed) := by
  have hleft : a.bits v = (pairBits (a.zip b) v).map (·.1) := by
    calc a.bits v = ((a.zip b).map (·.1)).map (·.eval v) := by
          rw [List.map_fst_zip (Nat.le_of_eq hlen)]
          rfl
      _ = (pairBits (a.zip b) v).map (·.1) := by simp [pairBits]
  have hright : b.bits v = (pairBits (a.zip b) v).map (·.2) := by
    calc b.bits v = ((a.zip b).map (·.2)).map (·.eval v) := by
          rw [List.map_snd_zip (Nat.le_of_eq hlen.symm)]
          rfl
      _ = (pairBits (a.zip b) v).map (·.2) := by simp [pairBits]
  rw [hleft, hright, orderPairs]
  rcases List.eq_nil_or_concat (a.zip b) with hps | ⟨ps, ⟨x, y⟩, hps⟩
  · rw [hps]
    cases signed <;> rfl
  · rw [hps, List.concat_eq_append, List.reverse_concat]
    cases signed with
    | false =>
      have h := Bits.less_iff (pairBits (ps ++ [(x, y)]) v)
      rw [pairBits, ← List.map_reverse, List.reverse_concat] at h
      simpa [Bits.value, pairBits] using h
    | true =>
      have h := Bits.less_signed_iff (pairBits ps v) (x.eval v) (y.eval v)
      rw [pairBits, ← List.map_reverse] at h
      simpa [Bits.value, pairBits] using h

/-- The pairs are those of the two words, some negated. -/
theorem var_of_mem_orderPairs {signed : Bool} {p : Literal × Literal}
    (hp : p ∈ orderPairs signed a b) :
    ∃ x ∈ a, ∃ y ∈ b, p.1.var = x.var ∧ p.2.var = y.var := by
  have hzip : ∀ q ∈ (a.zip b).reverse, q.1 ∈ a ∧ q.2 ∈ b := fun q hq =>
    List.of_mem_zip (List.mem_reverse.1 hq)
  unfold orderPairs at hp
  split at hp
  · rename_i x y rest hpairs
    rw [hpairs] at hzip
    have hfirst := hzip (x, y) List.mem_cons_self
    have hrest : p ∈ rest → ∃ x ∈ a, ∃ y ∈ b, p.1.var = x.var ∧ p.2.var = y.var := fun hp =>
      ⟨_, (hzip p (List.mem_cons_of_mem _ hp)).1, _, (hzip p (List.mem_cons_of_mem _ hp)).2, rfl,
        rfl⟩
    cases signed <;> rcases List.mem_cons.1 hp with rfl | hp
    · exact ⟨x, hfirst.1, y, hfirst.2, rfl, rfl⟩
    · exact hrest hp
    · exact ⟨x, hfirst.1, y, hfirst.2, rfl, rfl⟩
    · exact hrest hp
  · cases hp

theorem addsGates_lessThan (hnet : net[0]? = some .constant) (ha : a.Within net)
    (hb : b.Within net) (signed : Bool) :
    Gated.AddsGates net (lessThan a b signed) fun l net' => l.Denotes net' fun v =>
      decide ((a.bits v).value signed < (b.bits v).value signed) := by
  have htop := (Literal.denotes_top hnet).lt
  have hpairs : ∀ p ∈ orderPairs signed a b, p.1.var < net.length ∧ p.2.var < net.length := by
    intro p hp
    obtain ⟨x, hx, y, hy, hleft, hright⟩ := var_of_mem_orderPairs hp
    exact ⟨hleft ▸ ha x hx, hright ▸ hb y hy⟩
  refine addsGates_aligned fun hlen => (addsGates_lessTerms htop hpairs).bind
    fun w net₁ h₁ ⟨hw, hany⟩ => ?_
  have hnet₁ := Netlist.getElem?_of_isPrefix h₁ hnet
  refine (Circuit.addsGates_orAll hnet₁ hw).imp fun l net' h hl => ⟨hl.lt, fun v hv => ?_⟩
  have hone : v 0 = true := hv 0 _ (Netlist.getElem?_of_isPrefix h hnet₁)
  have hany : (w.map (·.eval v)).any id = _ := hany v (hv.of_isPrefix h)
  rw [hl.eval_eq v hv, hany, less_orderPairs signed hlen]
  simp [Literal.eval_top hone]

/-! ## Parts of words -/

/-- Cutting or extending a word keeps its value, as far as the width goes, if extension repeats the
bit that it should. -/
theorem bits_resize_of_extension {v : Valuation} {a : Word} {signed : Bool}
    (h : (a.extension signed).eval v = (signed && (a.bits v).getLastD false)) (width : Nat) :
    (a.resize width signed).bits v = .ofInt width ((a.bits v).value signed) := by
  rw [Bits.ofInt_value, resize, bits_append, bits_take, length_bits, ← h]
  simp [bits]

/-- Extension repeats the sign bit of a signed word that has one. -/
theorem eval_extension {a : Word} (ha : a ≠ []) (v : Valuation) :
    (a.extension true).eval v = (a.bits v).getLastD false := by
  rcases List.eq_nil_or_concat a with rfl | ⟨a, l, rfl⟩
  · exact absurd rfl ha
  · simp [extension, bits]

/-- Cutting or extending a word keeps its value, as far as the width goes. -/
theorem bits_resize {v : Valuation} (hv : v 0 = true) (a : Word) (width : Nat) (signed : Bool) :
    (a.resize width signed).bits v = .ofInt width ((a.bits v).value signed) := by
  have hbottom := Literal.eval_bottom hv
  refine bits_resize_of_extension ?_ width
  cases signed with
  | false => exact hbottom
  | true =>
    by_cases ha : a = []
    · subst ha
      exact hbottom
    · exact eval_extension ha v

theorem within_resize (hnet : net[0]? = some .constant) (ha : a.Within net) (width : Nat)
    (signed : Bool) : (a.resize width signed).Within net := by
  have hbottom := (Literal.denotes_bottom hnet).lt
  refine within_append.2 ⟨fun l hl => ha l (List.mem_of_mem_take hl), fun l hl => ?_⟩
  obtain rfl := (List.mem_replicate.1 hl).2
  unfold extension
  split
  · rcases List.eq_nil_or_concat a with rfl | ⟨a, l, rfl⟩
    · exact hbottom
    · exact ha _ (by simp)
  · exact hbottom

theorem bits_slice (a : Word) (upper lower : Nat) (v : Valuation) :
    (a.slice upper lower).bits v = ((a.bits v).drop lower).take (upper + 1 - lower) := by
  simp [slice, bits]

theorem within_slice (ha : a.Within net) (upper lower : Nat) :
    (a.slice upper lower).Within net := fun l hl =>
  ha l (List.mem_of_mem_drop (List.mem_of_mem_take hl))

end Word

end BitUnroll
