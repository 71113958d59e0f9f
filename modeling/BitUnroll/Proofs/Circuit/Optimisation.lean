import BitUnroll.Proofs.Circuit.Renaming
import BitUnroll.Proofs.Circuit.Session
import Mathlib.Data.List.Forall2
import Mathlib.Data.Option.Basic
import Mathlib.Data.Set.Function

/-!
# What the optimisations change

A program of operations may be run with any optimisations. More optimisations give a formula with
no more variables and no more clauses, in which some literal stands for each literal of the other
formula. Reading a model of the smaller formula through these literals gives a model of the larger
one, and each model of the larger one exactly once.

## Main definitions

* `Argument`, `Program.run`: operations on constants and on earlier results.

## Main statements

* `Operation.mirrors_build`: one operation with and without optimisations.
* `Circuit.Reduction.bijOn_models`: the models of a formula and of one that it reduces to.
* `Program.exists_literal_map`: any program with and without optimisations.
-/

namespace BitUnroll

namespace Circuit

open Build (Mirrors)

variable {c d : Circuit} {r : Renaming} {net net' : Netlist} {required required' : List Literal}
  {a a' b b' : Literal}

/-! ## Inputs and requirements -/

/-- A fresh variable on both sides. The new variables stand for each other. -/
theorem mirrors_fresh : Mirrors r fresh fresh Renaming.Relates := by
  rintro c d ⟨net, net', required, required', h⟩
  obtain ⟨hout, hfits⟩ := h.fits.fresh
  obtain ⟨hout', hfits'⟩ := h.fits'.fresh
  have hnumVars := h.numVars_le
  refine ⟨r.extend ⟨net'.length, true⟩, r.extends_extend _, ⟨_, _, _, _,
    h.extend hfits hfits' (List.prefix_append ..) rfl rfl (by simp) (fun v hv => ?_)
      (fun y hy hle => ?_) (fun _ => by simp) (fun _ _ _ _ h => h) (fun _ _ h => .inl h) ?_
      h.clauses_le⟩, ?_⟩
  · rw [Source.value, Renaming.pull, ← h.size_eq, Renaming.extend_image_size]
  · obtain rfl : y = net'.length := by simp at hy; omega
    rfl
  · simp only [fresh, Cnf.numVars_newVar]
    omega
  · rw [hout, hout', ← h.size_eq]
    exact ⟨Nat.lt_succ_self _, Renaming.extend_image_size ..⟩

/-- A unit clause on both sides. -/
theorem Reduction.addUnit (h : Reduction r c d net net' required required')
    (ha : r.Relates a a') : Reduces r (Circuit.addUnit a c).2 (Circuit.addUnit a' d).2 := by
  obtain ⟨hvar, hvar'⟩ := h.var_lt ha
  refine ⟨net, net', required ++ [a], required' ++ [a'], ?_⟩
  exact { h with
    fits := h.fits.addUnit hvar
    fits' := h.fits'.addUnit hvar'
    required_iff := fun v hv => by
      rw [List.forall_mem_append, List.forall_mem_append, h.required_iff v hv,
        List.forall_mem_singleton, List.forall_mem_singleton, ← Renaming.eval_apply, ha.apply_eq]
    clauses_le := by simpa [Circuit.addUnit, Cnf.addClause] using h.clauses_le }

/-- A unit clause that only the plain circuit needs, as the constant true stands for its literal. -/
theorem Reduction.skipUnit (h : Reduction r c d net net' required required')
    (ha : r.Relates a .top) : Reduces r (Circuit.addUnit a c).2 d := by
  have hclauses := h.clauses_le
  refine ⟨net, net', required ++ [a], required', ?_⟩
  exact { h with
    fits := h.fits.addUnit (h.var_lt ha).1
    required_iff := fun v hv => by
      have htop : a.eval (r.pull v) = true := by
        rw [← Renaming.eval_apply, ha.apply_eq, Literal.eval_top (h.fits'.eval_constant hv)]
      rw [List.forall_mem_append, h.required_iff v hv, List.forall_mem_singleton]
      exact and_iff_left htop
    clauses_le := by
      simp [Circuit.addUnit, Cnf.addClause]
      omega }

theorem mirrors_require (ha : r.Relates a a') :
    Mirrors r (require a) (require a') fun _ _ _ => True := by
  rintro c d ⟨net, net', required, required', h⟩
  refine ⟨r, .rfl, ?_, trivial⟩
  unfold require
  by_cases hskip' : (d.options.constProp && a' == Literal.top) = true
  · rw [if_pos hskip']
    rw [Bool.and_eq_true, beq_iff_eq] at hskip'
    split
    · exact ⟨_, _, _, _, h⟩
    · exact h.skipUnit (hskip'.2 ▸ ha)
  · -- the plain circuit does not skip either
    have hskip : ¬(c.options.constProp && a == Literal.top) = true := by
      rw [Bool.and_eq_true, beq_iff_eq]
      rintro ⟨hprop, rfl⟩
      apply hskip'
      rw [h.constProp hprop, ← ha.apply_eq]
      simp [Literal.top, h.constant]
    rw [if_neg hskip, if_neg hskip']
    exact h.addUnit ha

/-! ## Gates made from gates -/

/-- A computation on two literals keeps reductions. -/
def Uniform (x : Literal → Literal → Build Literal) : Prop :=
  ∀ (r : Renaming) (a b a' b' : Literal), r.Relates a a' → r.Relates b b' →
    Mirrors r (x a b) (x a' b') Renaming.Relates

theorem uniform_and : Uniform and := fun _ _ _ _ _ ha hb => mirrors_gate .and ha hb

theorem uniform_xor : Uniform xor := fun _ _ _ _ _ ha hb => mirrors_gate .xor ha hb

theorem uniform_or : Uniform or := fun r _ _ _ _ ha hb =>
  (uniform_and r _ _ _ _ ha.neg hb.neg).bind fun _ _ _ _ hl => .pure hl.neg

theorem uniform_implies : Uniform implies := fun r _ _ _ _ ha hb =>
  uniform_or r _ _ _ _ ha.neg hb

theorem uniform_iff : Uniform iff := fun r _ _ _ _ ha hb =>
  (uniform_xor r _ _ _ _ ha hb).bind fun _ _ _ _ hl => .pure hl.neg

theorem mirrors_select {condition condition' : Literal} (hc : r.Relates condition condition')
    (ha : r.Relates a a') (hb : r.Relates b b') :
    Mirrors r (select condition a b) (select condition' a' b') Renaming.Relates := by
  refine (uniform_and r _ _ _ _ hc ha).bind fun r₁ chosen chosen' h₁ hchosen => ?_
  refine (uniform_and r₁ _ _ _ _ (hc.mono h₁).neg (hb.mono h₁)).bind
    fun r₂ other other' h₂ hother => ?_
  exact uniform_or r₂ _ _ _ _ (hchosen.mono h₂) hother

theorem Uniform.foldlM {x : Literal → Literal → Build Literal} (hx : Uniform x)
    {ls ls' : List Literal} (hls : List.Forall₂ r.Relates ls ls') (ha : r.Relates a a') :
    Mirrors r (ls.foldlM x a) (ls'.foldlM x a') Renaming.Relates := by
  induction ls generalizing ls' r a a' with
  | nil =>
    cases hls
    exact .pure ha
  | cons b ls ih =>
    obtain ⟨b', rest, hb, hrest, rfl⟩ := List.forall₂_cons_left_iff.1 hls
    rw [List.foldlM_cons, List.foldlM_cons]
    refine (hx r _ _ _ _ ha hb).bind fun r' l l' hext hl => ?_
    exact ih (hrest.imp fun _ _ h => h.mono hext) hl

theorem mirrors_andAll {ls ls' : List Literal} (htop : r.Relates .top .top)
    (hls : List.Forall₂ r.Relates ls ls') :
    Mirrors r (andAll ls) (andAll ls') Renaming.Relates := by
  cases hls with
  | nil => exact .pure htop
  | cons hfirst hrest => exact uniform_and.foldlM hrest hfirst

theorem mirrors_orAll {ls ls' : List Literal} (htop : r.Relates .top .top)
    (hls : List.Forall₂ r.Relates ls ls') :
    Mirrors r (orAll ls) (orAll ls') Renaming.Relates := by
  cases hls with
  | nil => exact .pure htop.neg
  | cons hfirst hrest => exact uniform_or.foldlM hrest hfirst

end Circuit

/-! ## Operations -/

open Build (Mirrors)

/-- An operation keeps reductions, and what it hands out is related. -/
theorem Operation.mirrors_build {α : Type} {r : Renaming} {f g : α → Literal}
    (htop : r.Relates .top .top) (operation : Operation α)
    (hoperands : ∀ x ∈ operation.operands, r.Relates (f x) (g x)) :
    Mirrors r (operation.map f).build (operation.map g).build fun r' => Option.Rel r'.Relates := by
  have hsome : ∀ {x y : Build Literal}, Mirrors r x y Renaming.Relates →
      Mirrors r (some <$> x) (some <$> y) fun r' => Option.Rel r'.Relates :=
    fun h => h.map fun _ _ _ hl => .some hl
  have hnone : ∀ {x y : Build Unit}, Mirrors r x y (fun _ _ _ => True) →
      Mirrors r (x >>= fun _ => pure none) (y >>= fun _ => pure none)
        fun r' => Option.Rel r'.Relates :=
    fun h => h.bind fun _ _ _ _ _ => .pure .none
  have hlist : ∀ ls : List α, (∀ x ∈ ls, r.Relates (f x) (g x)) →
      List.Forall₂ r.Relates (ls.map f) (ls.map g) := by
    intro ls h
    rw [List.forall₂_map_left_iff, List.forall₂_map_right_iff, List.forall₂_same]
    exact h
  cases operation with
  | newVariable => exact hsome Circuit.mirrors_fresh
  | binary gate a b =>
    have ha := hoperands a (by simp [operands])
    have hb := hoperands b (by simp [operands])
    cases gate
    · exact hsome (Circuit.uniform_and r _ _ _ _ ha hb)
    · exact hsome (Circuit.uniform_or r _ _ _ _ ha hb)
    · exact hsome (Circuit.uniform_xor r _ _ _ _ ha hb)
    · exact hsome (Circuit.uniform_implies r _ _ _ _ ha hb)
    · exact hsome (Circuit.uniform_iff r _ _ _ _ ha hb)
  | select condition a b =>
    exact hsome (Circuit.mirrors_select (hoperands condition (by simp [operands]))
      (hoperands a (by simp [operands])) (hoperands b (by simp [operands])))
  | andAll ls => exact hsome (Circuit.mirrors_andAll htop (hlist ls hoperands))
  | orAll ls => exact hsome (Circuit.mirrors_orAll htop (hlist ls hoperands))
  | require a => exact hnone (Circuit.mirrors_require (hoperands a (by simp [operands])))
  | requireEqual a b =>
    refine hnone (Mirrors.bind (Circuit.uniform_iff r _ _ _ _ (hoperands a (by simp [operands]))
      (hoperands b (by simp [operands]))) fun _ _ _ _ hl => Circuit.mirrors_require hl)

/-! ## Programs -/

/-- An argument of a program: a constant, or the result of an earlier operation or its negation. -/
inductive Argument where
  | constant (value : Bool)
  | result (index : Nat) (sign : Bool)
  deriving DecidableEq, Repr

/-- The literal of an argument, from the results so far. An argument that names no result is the
constant true. -/
def Argument.literal (outputs : List (Option Literal)) : Argument → Literal
  | constant value => .ofBool value
  | result index sign =>
    match outputs[index]?.join with
    | some l => if sign then l else -l
    | none => .top

/-- Operations in the order in which they are performed. -/
abbrev Program := List (Operation Argument)

namespace Program

/-- Performs the operations of a program behind others, and hands out all results. -/
def perform (outputs : List (Option Literal)) : Program → Build (List (Option Literal))
  | [] => return outputs
  | operation :: rest => do
    let output ← (operation.map (Argument.literal outputs)).build
    perform (outputs ++ [output]) rest

/-- The results of a program on the circuit of the constant, and the circuit it leads to. -/
def run (options : GateOptions) (program : Program) : List (Option Literal) × Circuit :=
  perform [] program (.initial options)

end Program

/-- The literals of an argument are related if the results are. -/
theorem Argument.relates_literal {r : Renaming} {outputs outputs' : List (Option Literal)}
    (htop : r.Relates .top .top) (h : List.Forall₂ (Option.Rel r.Relates) outputs outputs')
    (x : Argument) : r.Relates (x.literal outputs) (x.literal outputs') := by
  cases x with
  | constant value => cases value <;> first | exact htop | exact htop.neg
  | result index sign =>
    have hindex : Option.Rel r.Relates outputs[index]?.join outputs'[index]?.join := by
      induction h generalizing index with
      | nil => exact .none
      | cons h _ ih =>
        cases index with
        | zero => simpa using h
        | succ index => simpa using ih index
    simp only [literal]
    generalize outputs[index]?.join = output at hindex ⊢
    generalize outputs'[index]?.join = output' at hindex ⊢
    cases hindex with
    | none => exact htop
    | some hl =>
      cases sign
      · exact hl.neg
      · exact hl

namespace Circuit

variable {c d : Circuit} {r : Renaming} {net net' : Netlist} {required required' : List Literal}

theorem Reduces.relates_top (h : Reduces r c d) : r.Relates .top .top := by
  obtain ⟨net, net', required, required', h⟩ := h
  exact ⟨h.size_eq ▸ h.fits.length_pos, h.constant⟩

/-- The circuits of the constant, where the second one optimises no less than the first. -/
theorem reduces_initial {options options' : GateOptions}
    (hprop : options.constProp = true → options'.constProp = true)
    (hsharing : options.gateSharing = true → options'.gateSharing = true) :
    Reduces ⟨1, fun _ => .top⟩ (initial options) (initial options') := by
  refine ⟨[.constant], [.constant], [], [], ?_⟩
  exact {
    fits := fits_initial options
    fits' := fits_initial options'
    constProp := hprop
    gateSharing := hsharing
    size_eq := rfl
    constant := rfl
    image_lt := fun _ _ => Nat.one_pos
    holds := fun v hv => by
      have htrue : v 0 = true := hv 0 _ rfl
      rw [← List.nil_append [Source.constant], Netlist.holds_concat]
      simp [Renaming.pull, Literal.eval_top htrue, Source.value]
    onto := fun y hy => by
      obtain rfl : y = 0 := by simpa using hy
      exact ⟨0, Nat.one_pos, rfl⟩
    input := fun x hx => by cases x <;> simp at hx
    input_injective := fun x _ hx => by cases x <;> simp at hx
    shared := fun key out h => by simp [initial] at h
    required_iff := fun _ _ => by simp
    numVars_le := Nat.le_refl _
    clauses_le := Nat.le_refl _ }

/-- Reading a model of the optimised formula through the renaming gives each model of the plain
formula once. -/
theorem Reduction.bijOn_models (h : Reduction r c d net net' required required') :
    Set.BijOn (fun m (x : Fin c.formula.numVars) => (r.image x).eval (Cnf.extend m))
      d.formula.models c.formula.models := by
  refine ⟨fun m hm => ?_, fun m hm m' hm' heq => ?_, fun m hm => ?_⟩
  · obtain ⟨hholds, hrequired⟩ := (h.fits'.eval_iff _).1 hm
    exact h.fits.formula_scoped.restrict_mem_models.2 ((h.fits.eval_iff _).2
      ⟨h.holds _ hholds, (h.required_iff _ hholds).2 hrequired⟩)
  · funext y
    obtain ⟨x, hx, himage⟩ := h.onto y (h.fits'.numVars_eq ▸ y.isLt)
    have hvalue := congrFun heq ⟨x, by rwa [h.fits.numVars_eq, ← h.size_eq]⟩
    simpa [himage, Cnf.extend] using hvalue
  · -- the inputs of the optimised circuit get the values of the inputs that they stand for
    obtain ⟨hholds, hrequired⟩ := (h.fits.eval_iff _).1 hm
    let inputs : Set Nat := fun x => net[x]? = some .input
    have hinjective : Set.InjOn r.image inputs := fun x hx y hy => h.input_injective x y hx hy
    let v := net'.settle fun y => Cnf.extend m (Function.invFunOn r.image inputs ⟨y, true⟩)
    have hv : net'.Holds v := Netlist.holds_settle h.fits'.ordered _
    have hinputs : ∀ y : Nat, net'[y]? = some .input →
        v y = Cnf.extend m (Function.invFunOn r.image inputs ⟨y, true⟩) := fun _ hy =>
      Netlist.settle_of_input _ hy
    have hsame : ∀ x < net.length, r.pull v x = Cnf.extend m x := by
      intro x hx
      rw [hholds.eq_settle h.fits.ordered (fun _ _ => rfl) x hx]
      refine (h.holds v hv).eq_settle h.fits.ordered (fun x hx => ?_) x hx
      obtain ⟨hsign, hinput⟩ := h.input x hx
      have himage : r.image x = ⟨(r.image x).var, true⟩ := by
        rw [← hsign]
      rw [Renaming.pull, himage, Literal.eval_positive, hinputs _ hinput, ← himage,
        hinjective.leftInvOn_invFunOn hx]
    have hmodel : d.formula.eval v = true := by
      refine (h.fits'.eval_iff v).2 ⟨hv, (h.required_iff v hv).1 fun l hl => ?_⟩
      rw [Literal.eval, hsame _ (h.fits.required_lt l hl)]
      exact hrequired l hl
    refine ⟨fun y => v y, h.fits'.formula_scoped.restrict_mem_models.2 hmodel, ?_⟩
    funext x
    have hx : x.val < net.length := h.fits.numVars_eq ▸ x.isLt
    have hvar : (r.image x).var < d.formula.numVars :=
      h.fits'.numVars_eq ▸ h.image_lt x (h.size_eq ▸ hx)
    show (r.image x).eval _ = _
    rw [Literal.eval, Cnf.extend_restrict v hvar, ← Literal.eval, ← Cnf.extend_of_lt m x.isLt]
    exact hsame x hx

end Circuit

namespace Program

/-- A program keeps reductions, and its results are related. -/
theorem mirrors_perform {r : Renaming} {outputs outputs' : List (Option Literal)}
    (htop : r.Relates .top .top) (h : List.Forall₂ (Option.Rel r.Relates) outputs outputs')
    (program : Program) : Mirrors r (perform outputs program) (perform outputs' program)
      fun r' => List.Forall₂ (Option.Rel r'.Relates) := by
  induction program generalizing r outputs outputs' with
  | nil => exact .pure h
  | cons operation rest ih =>
    refine (operation.mirrors_build htop fun x _ => x.relates_literal htop h).bind
      fun r' output output' hext houtput => ih (htop.mono hext) ?_
    refine List.rel_append (h.imp fun _ _ hl => ?_) (.cons houtput .nil)
    cases hl with
    | none => exact .none
    | some hl => exact .some (hl.mono hext)

/-- **Optimisations rename literals and keep the models.** If the second of two runs of a program
optimises no less than the first, its formula has no more variables and no more clauses. Some map
of literals, which respects negation and the constants, sends each result of the first run to that
of the second, and reading the models of the second formula through it gives each model of the
first one exactly once. -/
theorem exists_literal_map (program : Program) {options options' : GateOptions}
    (hprop : options.constProp = true → options'.constProp = true)
    (hsharing : options.gateSharing = true → options'.gateSharing = true) :
    ∃ h : Literal → Literal, (∀ l, h (-l) = -h l) ∧ h .top = .top ∧ h .bottom = .bottom ∧
      (∀ l : Literal, l.var < (program.run options).2.formula.numVars →
        (h l).var < (program.run options').2.formula.numVars) ∧
      (program.run options').1 = (program.run options).1.map (Option.map h) ∧
      (program.run options').2.formula.numVars ≤ (program.run options).2.formula.numVars ∧
      (program.run options').2.formula.clauses.size ≤
        (program.run options).2.formula.clauses.size ∧
      Set.BijOn (fun m (x : Fin (program.run options).2.formula.numVars) =>
          (h ⟨x, true⟩).eval (Cnf.extend m))
        (program.run options').2.formula.models (program.run options).2.formula.models := by
  have hstart := Circuit.reduces_initial hprop hsharing
  obtain ⟨r, -, ⟨net, net', required, required', h⟩, houtputs⟩ :=
    mirrors_perform hstart.relates_top .nil program _ _ hstart
  have htop : r.apply .top = .top := h.constant
  refine ⟨r.apply, r.apply_neg, htop, ?_, fun l hl => ?_, ?_, h.numVars_le, h.clauses_le,
    h.bijOn_models⟩
  · rw [← Literal.neg_top, r.apply_neg, htop]
  · rw [Renaming.var_apply]
    exact h.fits'.numVars_eq ▸ h.image_lt _ (by rwa [h.size_eq, ← h.fits.numVars_eq])
  · rw [eq_comm, ← List.forall₂_eq_eq_eq, List.forall₂_map_left_iff]
    refine houtputs.imp fun _ _ hl => ?_
    cases hl with
    | none => rfl
    | some hl => exact congrArg some hl.apply_eq

/-- Two inputs, their conjunction, and once more its negation in other words. Sharing saves the
second gate, and the output of the first one stands for it. -/
theorem exists_literal_map_repeated_gate :
    let program : Program := [.newVariable, .newVariable,
      .binary .and (.result 0 true) (.result 1 true),
      .binary .or (.result 1 false) (.result 0 false), .require (.result 3 false)]
    (program.run ⟨false, false⟩).1 = [some ⟨1, true⟩, some ⟨2, true⟩, some ⟨3, true⟩,
      some ⟨4, false⟩, none] ∧
    ∃ h : Literal → Literal, h ⟨3, true⟩ = ⟨3, true⟩ ∧ h ⟨4, false⟩ = ⟨3, false⟩ ∧
      (program.run ⟨true, true⟩).2.formula.numVars = 4 ∧
      Set.BijOn (fun m (x : Fin (program.run ⟨false, false⟩).2.formula.numVars) =>
          (h ⟨x, true⟩).eval (Cnf.extend m))
        (program.run ⟨true, true⟩).2.formula.models
        (program.run ⟨false, false⟩).2.formula.models := by
  intro program
  obtain ⟨h, -, -, -, -, houtputs, -, -, hmodels⟩ := exists_literal_map program
    (by decide : (⟨false, false⟩ : GateOptions).constProp = true →
      (⟨true, true⟩ : GateOptions).constProp = true)
    (by decide : (⟨false, false⟩ : GateOptions).gateSharing = true →
      (⟨true, true⟩ : GateOptions).gateSharing = true)
  have hplain : (program.run ⟨false, false⟩).1 = [some ⟨1, true⟩, some ⟨2, true⟩, some ⟨3, true⟩,
      some ⟨4, false⟩, none] := by decide
  have hoptimised : (program.run ⟨true, true⟩).1 = [some ⟨1, true⟩, some ⟨2, true⟩,
      some ⟨3, true⟩, some ⟨3, false⟩, none] := by decide
  rw [hplain, hoptimised] at houtputs
  simp only [List.map_cons, Option.map_some, List.cons.injEq, Option.some.injEq] at houtputs
  obtain ⟨-, -, hconjunction, hdisjunction, -⟩ := houtputs
  exact ⟨hplain, h, hconjunction.symm, hdisjunction.symm, by decide, hmodels⟩

end Program

end BitUnroll
