import BitUnroll.Word.Arithmetic

/-!
# What circuits are made of

Every operation on literals and words is made of gates on two literals, one after the other, where
later gates may depend on the literals that earlier ones handed out. It looks at the circuit in no
other way, and adds nothing else to it. So what gates and sequences of computations keep is kept by
all operations.

## Main definitions

* `Build.Composed`: computations that are made of gates.
* `Word.Gated.Composed`: the same where the lengths of words may stop a computation.

## Main statements

* `Word.composed_mul`, `Word.composed_lessThan` and so on: each operation on words.
-/

namespace BitUnroll

namespace Build

/-- Computations that are made of gates. -/
inductive Composed : {α : Type} → Build α → Prop
  | pure {α : Type} (a : α) : Composed (Pure.pure a)
  | gate (op : GateOp) (a b : Literal) : Composed (Circuit.gate op a b)
  | bind {α β : Type} {x : Build α} {f : α → Build β} (first : Composed x)
      (rest : ∀ a, Composed (f a)) : Composed (x >>= f)

/-- One computation for each literal of a list. -/
theorem Composed.mapM {f : Literal → Build Literal} (hf : ∀ l, Composed (f l)) (ls : Word) :
    Composed (ls.mapM f) := by
  induction ls with
  | nil => exact .pure []
  | cons l ls ih =>
    rw [List.mapM_cons]
    exact (hf l).bind fun _ => ih.bind fun _ => .pure _

/-- A gate over a list, from the left. -/
theorem Composed.foldlM {f : Literal → Literal → Build Literal} (hf : ∀ a b, Composed (f a b))
    (ls : Word) (a : Literal) : Composed (ls.foldlM f a) := by
  induction ls generalizing a with
  | nil => exact .pure a
  | cons l ls ih =>
    rw [List.foldlM_cons]
    exact (hf a l).bind ih

end Build

/-! ## Gates -/

namespace Circuit

open Build (Composed)

theorem composed_and (a b : Literal) : Composed (Circuit.and a b) := .gate .and a b

theorem composed_xor (a b : Literal) : Composed (xor a b) := .gate .xor a b

theorem composed_or (a b : Literal) : Composed (Circuit.or a b) :=
  (composed_and (-a) (-b)).bind fun _ => .pure _

theorem composed_implies (a b : Literal) : Composed (implies a b) := composed_or (-a) b

theorem composed_iff (a b : Literal) : Composed (iff a b) :=
  (composed_xor a b).bind fun _ => .pure _

theorem composed_select (condition a b : Literal) : Composed (select condition a b) :=
  (composed_and condition a).bind fun chosen => (composed_and (-condition) b).bind fun other =>
    composed_or chosen other

theorem composed_andAll (ls : List Literal) : Composed (andAll ls) := by
  cases ls with
  | nil => exact .pure _
  | cons first rest => exact .foldlM composed_and rest first

theorem composed_orAll (ls : List Literal) : Composed (orAll ls) := by
  cases ls with
  | nil => exact .pure _
  | cons first rest => exact .foldlM composed_or rest first

theorem composed_xorAll (ls : List Literal) : Composed (xorAll ls) := .foldlM composed_xor ls _

end Circuit

/-! ## Words -/

namespace Word

open Build (Composed)

variable {α β : Type}

/-- Computations that are made of gates, and that lengths may stop. -/
def Gated.Composed (x : Gated α) : Prop := Build.Composed x.run

theorem Gated.Composed.pure (a : α) : Gated.Composed (Pure.pure a : Gated α) :=
  Build.Composed.pure (Except.ok a)

theorem Gated.Composed.lift {x : Build α} (hx : Build.Composed x) :
    Gated.Composed (liftM x : Gated α) :=
  hx.bind fun a => .pure (Except.ok a)

theorem Gated.Composed.bind {x : Gated α} {f : α → Gated β} (hx : Gated.Composed x)
    (hf : ∀ a, Gated.Composed (f a)) : Gated.Composed (x >>= f) := by
  unfold Gated.Composed
  rw [ExceptT.run_bind]
  refine Build.Composed.bind hx fun result => ?_
  cases result with
  | ok a => exact hf a
  | error lengths => exact .pure _

theorem composed_aligned (a b : Word) {x : Build α} (hx : Composed x) :
    Gated.Composed (aligned a b x) := by
  unfold aligned
  split
  · exact Build.Composed.pure (Except.error _)
  · exact .lift hx

/-! ### Bit by bit -/

theorem composed_zipGates {f : Literal → Literal → Build Literal} (hf : ∀ x y, Composed (f x y))
    (a b : Word) : Composed (zipGates f a b) := by
  induction a generalizing b with
  | nil => exact .pure []
  | cons x a ih =>
    cases b with
    | nil => exact .pure []
    | cons y b => exact (hf x y).bind fun _ => (ih b).bind fun _ => .pure _

theorem composed_bitwise {f : Literal → Literal → Build Literal} (hf : ∀ x y, Composed (f x y))
    (a b : Word) : Gated.Composed (bitwise f a b) :=
  composed_aligned a b (composed_zipGates hf a b)

theorem composed_mux (condition : Literal) (a b : Word) : Gated.Composed (mux condition a b) :=
  composed_aligned a b (composed_zipGates (Circuit.composed_select condition) a b)

/-! ### Sums -/

theorem composed_fullAdder (x y carry : Literal) : Composed (fullAdder x y carry) := by
  refine (Circuit.composed_xor x y).bind fun half => ?_
  refine (Circuit.composed_xor half carry).bind fun sum => ?_
  refine (Circuit.composed_and x y).bind fun both => ?_
  refine (Circuit.composed_and carry half).bind fun passed => ?_
  exact (Circuit.composed_or both passed).bind fun _ => .pure _

theorem composed_ripple (carry : Literal) (a b : Word) : Composed (ripple carry a b) := by
  induction a generalizing carry b with
  | nil => exact .pure []
  | cons x a ih =>
    cases b with
    | nil => exact .pure []
    | cons y b =>
      exact (composed_fullAdder x y carry).bind fun out => (ih out.2 b).bind fun _ => .pure _

theorem composed_add (a b : Word) (carry : Literal) : Gated.Composed (add a b carry) :=
  composed_aligned a b (composed_ripple carry a b)

theorem composed_sub (a b : Word) : Gated.Composed (sub a b) := composed_add a b.complement .top

theorem composed_negate (a : Word) : Gated.Composed a.negate := composed_sub (zero a.length) a

/-! ### Products -/

theorem composed_product (a : Word) (shift : Nat) (bit : Literal) :
    Composed (product a shift bit) :=
  (Composed.mapM (Circuit.composed_and bit) _).bind fun _ => .pure _

theorem composed_sumProducts (a : Word) (shift : Nat) (sum b : Word) :
    Gated.Composed (sumProducts a shift sum b) := by
  induction b generalizing shift sum with
  | nil => exact .pure sum
  | cons bit b ih =>
    refine (Gated.Composed.lift (composed_product a shift bit)).bind fun term => ?_
    exact (composed_add sum term .bottom).bind fun next => ih (shift + 1) next

theorem composed_mul (a b : Word) : Gated.Composed (mul a b) :=
  (composed_aligned a b (.pure ())).bind fun _ => composed_sumProducts a 0 (zero a.length) b

/-! ### Comparisons -/

theorem composed_equal (a b : Word) : Gated.Composed (equal a b) :=
  composed_aligned a b
    ((composed_zipGates Circuit.composed_iff a b).bind Circuit.composed_andAll)

theorem composed_lessTerms (agree : Literal) (ps : List (Literal × Literal)) :
    Composed (lessTerms agree ps) := by
  induction ps generalizing agree with
  | nil => exact .pure []
  | cons p ps ih =>
    refine (Circuit.composed_and (-p.1) p.2).bind fun less => ?_
    refine (Circuit.composed_and agree less).bind fun term => ?_
    refine (Circuit.composed_iff p.1 p.2).bind fun same => ?_
    refine (Circuit.composed_and agree same).bind fun next => ?_
    exact (ih next).bind fun _ => .pure _

theorem composed_lessThan (a b : Word) (signed : Bool) : Gated.Composed (lessThan a b signed) :=
  composed_aligned a b ((composed_lessTerms .top _).bind Circuit.composed_orAll)

end Word

end BitUnroll
