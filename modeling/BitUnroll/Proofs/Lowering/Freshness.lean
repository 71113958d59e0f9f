import BitUnroll.Proofs.Lowering.Repetition

/-!
# Literals of different bits

Where no resolver is asked, a bit of a variable gets a literal on a fresh variable the first time
that it is looked for, and keeps it. The literals are kept by name, and a next value goes by a name
of its own, which is the variable's name with a prime. A variable may have such a name itself. So
bits that are kept under different names are always apart, and the bits of a next value are one with
the bits of the variable that has the primed name.

## Main definitions

* `PhasedBit`: one bit of a current or a next value, with the name under which it is kept.
* `PhasedBit.Clashes`: two bits that are kept under one name.
* `Lowering.Request`: lowering an expression to a literal or to a word.

## Main statements

* `PhasedBit.key_eq_iff`: which bits are kept under one name.
* `Lower.Composed.apart`: bits that are kept under different names stay apart.
* `Expr.literal?_of_symbol`, `Expr.literal?_of_nextSymbol`: the literals of a variable's word.
* `Lowering.Request.var_eq_iff_clashes`: which bits have literals on one variable.
-/

namespace BitUnroll

/-! ## Bits -/

theorem Symbols.primed_inj {name other : String} : primed name = primed other ↔ name = other := by
  unfold primed
  rw [String.append_left_inj]

/-- One bit of the current or the next value of a variable. -/
structure PhasedBit where
  name : String
  phase : Phase
  bit : Nat
  deriving DecidableEq, Repr

namespace PhasedBit

variable {a b : PhasedBit}

/-- The name and the number under which the bit's literal is kept. -/
def key (b : PhasedBit) : NamedBit :=
  match b.phase with
  | .current => ⟨b.name, b.bit⟩
  | .next => ⟨Symbols.primed b.name, b.bit⟩

/-- The first bit belongs to a next value, and the second one has the same number and belongs to the
current value of the variable whose name is the primed name of the first. -/
def Clashes (a b : PhasedBit) : Prop :=
  a.phase = .next ∧ b.phase = .current ∧ b.name = Symbols.primed a.name ∧ b.bit = a.bit

/-- Different bits are kept under one name only where a variable has a primed name. -/
theorem key_eq_iff : a.key = b.key ↔ a = b ∨ a.Clashes b ∨ b.Clashes a := by
  obtain ⟨n, p, i⟩ := a
  obtain ⟨m, q, j⟩ := b
  cases p <;> cases q <;> grind [key, Clashes, Symbols.primed_inj]

end PhasedBit

/-! ## Gates -/

namespace Circuit

theorem le_numVars_gate (op : GateOp) (a b : Literal) (c : Circuit) :
    c.formula.numVars ≤ (gate op a b c).2.formula.numVars := by
  rcases answers_or_lacks c op a b with ⟨l, hl⟩ | hl
  · rw [hl.gate_eq]
  · rw [hl.gate_eq]
    exact Nat.le_succ _

end Circuit

/-- No gate takes a variable away. -/
theorem Build.Composed.le_numVars {α : Type} {x : Build α} (hx : x.Composed) (c : Circuit) :
    c.formula.numVars ≤ (x c).2.formula.numVars := by
  induction hx generalizing c with
  | pure a => exact Nat.le_refl _
  | gate op a b => exact Circuit.le_numVars_gate op a b c
  | bind _ _ ihx ihf => exact (ihx c).trans (ihf _ _)

/-! ## States -/

namespace Lowering

/-- The literal of a bit, if it has one. -/
def literal? (s : Lowering) (b : PhasedBit) : Option Literal := s.bound[b.key]?

/-- The literals that names have are on variables of the circuit, and different names have theirs
on different variables. -/
structure Apart (s : Lowering) : Prop where
  var_lt : ∀ (key : NamedBit) (l : Literal), s.bound[key]? = some l →
    l.var < s.circuit.formula.numVars
  key_eq : ∀ (key other : NamedBit) (l k : Literal), s.bound[key]? = some l →
    s.bound[other]? = some k → l.var = k.var → key = other

namespace Apart

variable {s : Lowering}

theorem start (c : Circuit) : Apart { circuit := c } where
  var_lt key l hl := by simp at hl
  key_eq key other l k hl := by simp at hl

/-- The circuit may grow. -/
theorem grow (h : s.Apart) {c : Circuit} (hc : s.circuit.formula.numVars ≤ c.formula.numVars)
    (reads : Array Read) : Apart ⟨c, s.bound, reads⟩ where
  var_lt key l hl := (h.var_lt key l hl).trans_le hc
  key_eq := h.key_eq

/-- A name's first literal is on a variable that no other name has. -/
theorem fresh (h : s.Apart) (key : NamedBit) :
    Apart { s with
      circuit := (Circuit.fresh s.circuit).2
      bound := s.bound.insert key (Circuit.fresh s.circuit).1 } := by
  have hfresh : (Circuit.fresh s.circuit).1.var = s.circuit.formula.numVars := rfl
  have hvar : ∀ (k : NamedBit) (l : Literal),
      (s.bound.insert key (Circuit.fresh s.circuit).1)[k]? = some l →
        k = key ∧ l.var = s.circuit.formula.numVars ∨
          s.bound[k]? = some l ∧ l.var < s.circuit.formula.numVars := by
    intro k l hl
    rw [Std.TreeMap.getElem?_insert] at hl
    split at hl
    · rename_i heq
      cases hl
      exact .inl ⟨(Std.LawfulEqCmp.eq_of_compare heq).symm, hfresh⟩
    · exact .inr ⟨hl, h.var_lt k l hl⟩
  constructor
  · intro k l hl
    show l.var < s.circuit.formula.numVars + 1
    rcases hvar k l hl with ⟨-, hl⟩ | ⟨-, hl⟩ <;> omega
  · intro k other l m hl hm heq
    rcases hvar k l hl with ⟨hk, hl⟩ | ⟨hk, hl⟩ <;>
      rcases hvar other m hm with ⟨ho, hm⟩ | ⟨ho, hm⟩
    · rw [hk, ho]
    · omega
    · omega
    · exact h.key_eq k other l m hk ho heq

end Apart

end Lowering

namespace Lower

variable {α : Type} {symbols : Symbols} {s : Lowering}

theorem apart_demand (h : s.Apart) (name : String) (bit : Nat) :
    ((demand name bit).run s).2.Apart := by
  rw [run_demand]
  cases s.bound[(⟨name, bit⟩ : NamedBit)]? with
  | none => exact h.fresh ⟨name, bit⟩
  | some l => exact h

theorem apart_ask (h : s.Apart) (r : Resolver) (name : String) (bit t : Nat) :
    ((ask r name bit t).run s).2.Apart := by
  unfold ask
  rw [run_bind]
  cases r.resolve name bit t <;> exact h.grow (Nat.le_refl _) _

/-- Gates and questions keep the literals of different names apart. -/
theorem Composed.apart {x : Lower α} (hx : Composed symbols x) (h : s.Apart) :
    (x.run s).2.Apart := by
  induction hx generalizing s with
  | pure a => exact h
  | stop fault => exact h
  | build gates => exact h.grow (gates.le_numVars s.circuit) s.reads
  | bit phase frame name i =>
    cases symbols with
    | mapped r => cases phase <;> exact apart_ask h r name i _
    | onDemand => cases phase <;> exact apart_demand h _ i
  | @bind α β x f _ _ ihx ihf =>
    rcases run_bind_state x f s with hstop | ⟨a, hrest⟩
    · rw [hstop]
      exact ihx h
    · rw [hrest]
      exact ihf a (ihx h)

/-! ## Answers -/

/-- The answer to a question is the literal that the bit has from then on. -/
theorem literal?_of_bit {phase : Phase} {frame : Frame} {name : String} {i : Nat} {l : Literal}
    {s' : Lowering} (hrun : (Symbols.onDemand.bit phase frame name i).run s = (.ok l, s')) :
    s'.literal? ⟨name, phase, i⟩ = some l := by
  cases phase <;> exact getElem?_of_demand hrun

/-- The bits of a variable that were read in a row are the literals that they have from then on. -/
theorem literal?_of_wordFrom {phase : Phase} {frame : Frame} {name : String} {i count : Nat}
    {w : Word} {s' : Lowering}
    (hrun : (Symbols.onDemand.wordFrom phase frame name i count).run s = (.ok w, s')) {j : Nat}
    (hj : j < count) : s'.literal? ⟨name, phase, i + j⟩ = w[j]? := by
  induction count generalizing i j s w with
  | zero => omega
  | succ count ih =>
    obtain ⟨l, s₁, hfirst, hrun⟩ := run_bind_ok hrun
    obtain ⟨rest, s₂, hrest, hrun⟩ := run_bind_ok hrun
    cases hrun
    cases j with
    | zero =>
      -- the later questions leave the first bit its literal
      have hkept : s₁.Kept ((Symbols.onDemand.wordFrom phase frame name (i + 1) count).run s₁).2 :=
        (composed_wordFrom phase frame name (i + 1) count).keeps s₁
      rw [hrest] at hkept
      exact hkept.bound _ l (literal?_of_bit hfirst)
    | succ j =>
      have hlater := ih hrest (Nat.lt_of_succ_lt_succ hj)
      rw [Nat.add_assoc, Nat.add_comm 1 j] at hlater
      exact hlater

/-- The same for all bits of a variable that has any. -/
theorem literal?_of_word {phase : Phase} {frame : Frame} {name : String} {width : Nat}
    {e : LoweringError} {w : Word} {s' : Lowering}
    (hrun : (if width = 0 then refuse e
      else Symbols.onDemand.word phase frame name width : Lower Word).run s = (.ok w, s'))
    {i : Nat} (hi : i < width) : s'.literal? ⟨name, phase, i⟩ = w[i]? := by
  rw [if_neg (by omega)] at hrun
  have hbit := literal?_of_wordFrom hrun hi
  rw [Nat.zero_add] at hbit
  exact hbit

end Lower

namespace Expr

variable {types : TypeTable} {name : String} {ty : Ty} {frame : Frame} {s s' : Lowering} {w : Word}

/-- The word of a variable is made of the literals of its bits. -/
theorem literal?_of_symbol
    (hrun : ((symbol name ty).toWord ⟨types, .onDemand⟩ frame).run s = (.ok w, s')) {i : Nat}
    (hi : i < types.width ty) : s'.literal? ⟨name, .current, i⟩ = w[i]? :=
  Lower.literal?_of_word hrun hi

/-- The word of a next value is made of the literals of its bits. -/
theorem literal?_of_nextSymbol
    (hrun : ((nextSymbol name ty).toWord ⟨types, .onDemand⟩ frame).run s = (.ok w, s')) {i : Nat}
    (hi : i < types.width ty) : s'.literal? ⟨name, .next, i⟩ = w[i]? :=
  Lower.literal?_of_word hrun hi

end Expr

/-! ## Requests -/

/-- An expression that is lowered to a literal or to a word. -/
inductive Lowering.Request where
  | literal (e : Expr)
  | word (e : Expr)

namespace Lowering.Request

/-- The state after a request without a resolver, whether it succeeds or not. -/
def run (types : TypeTable) (s : Lowering) : Lowering.Request → Lowering
  | literal e => ((e.toLiteral ⟨types, .onDemand⟩ .phases).run s).2
  | word e => ((e.toWord ⟨types, .onDemand⟩ .phases).run s).2

/-- The state after requests one after the other on a circuit, where at first no bit has a
literal. -/
def runAll (types : TypeTable) (c : Circuit) (calls : List Lowering.Request) : Lowering :=
  calls.foldl (run types) { circuit := c }

theorem apart_run (types : TypeTable) {s : Lowering} (h : s.Apart) (call : Lowering.Request) :
    (call.run types s).Apart := by
  cases call with
  | literal e => exact ((e.composed _).truth _).apart h
  | word e => exact ((e.composed _).word _).apart h

theorem apart_foldl (types : TypeTable) {s : Lowering} (h : s.Apart)
    (calls : List Lowering.Request) : (calls.foldl (run types) s).Apart := by
  induction calls generalizing s with
  | nil => exact h
  | cons call calls ih => exact ih (apart_run types h call)

theorem apart_runAll (types : TypeTable) (c : Circuit) (calls : List Lowering.Request) :
    (runAll types c calls).Apart := apart_foldl types (.start c) calls

/-- **Bits are apart unless their names clash.** After any requests without a resolver, on any
circuit, two different bits have literals on one variable exactly where one is a bit of a next value
and the other the same bit of the current value of the variable with the primed name. -/
theorem var_eq_iff_clashes {types : TypeTable} {c : Circuit} {calls : List Lowering.Request}
    {a b : PhasedBit} {l k : Literal} (hab : a ≠ b)
    (ha : (runAll types c calls).literal? a = some l)
    (hb : (runAll types c calls).literal? b = some k) :
    l.var = k.var ↔ a.Clashes b ∨ b.Clashes a := by
  have happart := apart_runAll types c calls
  have hkey : a.key = b.key ↔ a.Clashes b ∨ b.Clashes a := by
    rw [PhasedBit.key_eq_iff, or_iff_right hab]
  rw [← hkey]
  constructor
  · exact happart.key_eq a.key b.key l k ha hb
  · intro heq
    have hsame : some l = some k := by rw [← ha, ← hb, Lowering.literal?, Lowering.literal?, heq]
    rw [Option.some.inj hsame]

/-- A variable of two bits and its next value, of which the first bits are apart. -/
theorem var_ne_of_next :
    let s := runAll .empty (.initial {})
      [.word (.symbol "x" (.unsigned 2)), .word (.nextSymbol "x" (.unsigned 2))]
    ∃ l k, s.literal? ⟨"x", .current, 0⟩ = some l ∧ s.literal? ⟨"x", .next, 0⟩ = some k ∧
      l.var ≠ k.var := by
  intro s
  have hx : s.literal? ⟨"x", .current, 0⟩ = some ⟨1, true⟩ := by decide +kernel
  have hnext : s.literal? ⟨"x", .next, 0⟩ = some ⟨3, true⟩ := by decide +kernel
  refine ⟨⟨1, true⟩, ⟨3, true⟩, hx, hnext, fun hvar => ?_⟩
  have hclash := (var_eq_iff_clashes (by decide) hx hnext).1 hvar
  simp [PhasedBit.Clashes, Symbols.primed] at hclash

/-- The next value of a variable and the variable with the primed name have one literal. -/
theorem exists_shared_variable :
    ∃ (calls : List Lowering.Request) (a b : PhasedBit) (l k : Literal), a ≠ b ∧
      (runAll .empty (.initial {}) calls).literal? a = some l ∧
      (runAll .empty (.initial {}) calls).literal? b = some k ∧ l.var = k.var :=
  ⟨[.word (.nextSymbol "x" (.unsigned 1)), .word (.symbol "x'" (.unsigned 1))],
    ⟨"x", .next, 0⟩, ⟨"x'", .current, 0⟩, ⟨1, true⟩, ⟨1, true⟩, by decide +kernel⟩

end Lowering.Request

end BitUnroll
