import BitUnroll.Proofs.Circuit.Denotation
import BitUnroll.Proofs.Circuit.Models

/-!
# Sessions

A session performs operations on a circuit that starts with the constant alone, each on literals
of variables that are there already. Whatever the operations and the optimisations, the formula
says what the operations mean: every literal handed out has the value of its operation, values of
the inputs determine the values of all variables, and they have a model, a single one, exactly if
everything required is true.

## Main definitions

* `Operation`: the operations, with operands of any type.
* `Session`: the circuits that operations lead to, with a log of the operations and their results.

## Main statements

* `Session.models_exact`: the models of a session's formula.
-/

namespace BitUnroll

/-! ## Operations -/

/-- The operations on two literals that hand out a literal. -/
inductive BinaryGate where
  | and
  | or
  | xor
  | implies
  | iff
  deriving DecidableEq, Repr

namespace BinaryGate

/-- The truth function of an operation on two literals. -/
def eval : BinaryGate → Bool → Bool → Bool
  | and, p, q => p && q
  | or, p, q => p || q
  | xor, p, q => p ^^ q
  | implies, p, q => !p || q
  | iff, p, q => p == q

/-- Performs an operation on two literals. -/
def build : BinaryGate → Literal → Literal → Build Literal
  | and => Circuit.and
  | or => Circuit.or
  | xor => Circuit.xor
  | implies => Circuit.implies
  | iff => Circuit.iff

theorem computes_build (gate : BinaryGate) : Circuit.Computes gate.build gate.eval := by
  cases gate
  · exact Circuit.computes_and
  · exact Circuit.computes_or
  · exact Circuit.computes_xor
  · exact Circuit.computes_implies
  · exact Circuit.computes_iff

end BinaryGate

/-- The operations on a circuit, with operands of a type. -/
inductive Operation (α : Type) where
  | newVariable
  | binary (gate : BinaryGate) (a b : α)
  | select (condition a b : α)
  | andAll (operands : List α)
  | orAll (operands : List α)
  | require (a : α)
  | requireEqual (a b : α)
  deriving DecidableEq, Repr

namespace Operation

variable {α β : Type}

/-- All operands of an operation. -/
def operands : Operation α → List α
  | newVariable => []
  | binary _ a b => [a, b]
  | select condition a b => [condition, a, b]
  | andAll operands => operands
  | orAll operands => operands
  | require a => [a]
  | requireEqual a b => [a, b]

/-- An operation with other operands in the places of its own. -/
def map (f : α → β) : Operation α → Operation β
  | newVariable => newVariable
  | binary gate a b => binary gate (f a) (f b)
  | select condition a b => select (f condition) (f a) (f b)
  | andAll operands => andAll (operands.map f)
  | orAll operands => orAll (operands.map f)
  | require a => require (f a)
  | requireEqual a b => requireEqual (f a) (f b)

/-- The truth value that an operation on truth values hands out, if it is a function of them. -/
def result? : Operation Bool → Option Bool
  | binary gate p q => some (gate.eval p q)
  | select condition p q => some (if condition then p else q)
  | andAll ps => some (ps.all id)
  | orAll ps => some (ps.any id)
  | newVariable | require _ | requireEqual .. => none

/-- Whether what an operation on truth values requires is the case. -/
def satisfied : Operation Bool → Bool
  | require p => p
  | requireEqual p q => p == q
  | _ => true

/-- Performs an operation, which may hand out a literal. -/
def build : Operation Literal → Build (Option Literal)
  | newVariable => some <$> Circuit.fresh
  | binary gate a b => some <$> gate.build a b
  | select condition a b => some <$> Circuit.select condition a b
  | andAll operands => some <$> Circuit.andAll operands
  | orAll operands => some <$> Circuit.orAll operands
  | require a => do
    Circuit.require a
    return none
  | requireEqual a b => do
    Circuit.requireEqual a b
    return none

/-- Whether an operation hands out a literal with the value of a truth function. -/
def IsGate (operation : Operation α) : Prop :=
  match operation with
  | newVariable | require _ | requireEqual .. => False
  | _ => True

end Operation

/-! ## Logs -/

/-- An operation that was performed, with the literal that it handed out. -/
structure Entry where
  operation : Operation Literal
  output : Option Literal
  deriving DecidableEq, Repr

namespace Entry

/-- Where an operation has a truth function, its literal has that function's value. -/
def Faithful (x : Entry) (v : Valuation) : Prop :=
  ∀ p, (x.operation.map (·.eval v)).result? = some p → ∃ l, x.output = some l ∧ l.eval v = p

/-- What an operation requires is the case. -/
def Satisfied (x : Entry) (v : Valuation) : Prop := (x.operation.map (·.eval v)).satisfied = true

/-- The variable that an operation handed out as an input. -/
def input? (x : Entry) : Option Nat :=
  match x.operation with
  | .newVariable => x.output.map (·.var)
  | _ => none

end Entry

/-- The variables that a log's operations handed out as inputs. -/
def inputs (log : List Entry) : List Nat := log.filterMap Entry.input?

/-- The circuits that operations lead to, and the log of these operations. Operands are constants
or literals of variables that are there already. -/
inductive Session (options : GateOptions) : List Entry → Circuit → Prop
  | start : Session options [] (.initial options)
  | step {log : List Entry} {c : Circuit} (operation : Operation Literal)
      (before : Session options log c)
      (operands_lt : ∀ l ∈ operation.operands, l.var < c.formula.numVars) :
      Session options (log ++ [⟨operation, (operation.build c).1⟩]) (operation.build c).2

/-! ## What a session's circuit says -/

open Build (AddsGates)

/-- A gate of a session adds gates only, and its literal has its value. -/
theorem Operation.addsGates_build {net : Netlist} (hnet : net[0]? = some .constant)
    {operation : Operation Literal} (hgate : operation.IsGate)
    (hlt : ∀ l ∈ operation.operands, l.var < net.length) :
    AddsGates net operation.build fun out net' =>
      ∀ v, net'.Holds v → Entry.Faithful ⟨operation, out⟩ v := by
  have hfaithful : ∀ {x : Build Literal} {f : Valuation → Bool},
      (∀ v, (operation.map (·.eval v)).result? = some (f v)) →
      AddsGates net x (fun l net' => l.Denotes net' f) →
      AddsGates net (some <$> x) fun out net' =>
        ∀ v, net'.Holds v → Entry.Faithful ⟨operation, out⟩ v := by
    intro x f hresult hx
    refine hx.map fun l net' _ hl v hv p hp => ⟨l, rfl, ?_⟩
    rw [hl.eval_eq v hv]
    exact Option.some.inj ((hresult v).symm.trans hp)
  cases operation with
  | newVariable | require | requireEqual => exact hgate.elim
  | binary gate a b =>
    exact hfaithful (fun _ => rfl) (gate.computes_build net a b (hlt a (by simp [operands]))
      (hlt b (by simp [operands])))
  | select condition a b =>
    exact hfaithful (fun _ => rfl) (Circuit.addsGates_select (hlt condition (by simp [operands]))
      (hlt a (by simp [operands])) (hlt b (by simp [operands])))
  | andAll ls => exact hfaithful (fun _ => rfl) (Circuit.addsGates_andAll hnet hlt)
  | orAll ls => exact hfaithful (fun _ => rfl) (Circuit.addsGates_orAll hnet hlt)

/-- Requiring a literal is one more required literal, or none if it is true anyway. -/
theorem Circuit.Fits.require {c : Circuit} {net : Netlist} {required : List Literal}
    (h : c.Fits net required) {a : Literal} (ha : a.var < net.length) :
    ∃ more, (Circuit.require a c).2.Fits net (required ++ more) ∧
      ∀ v, net.Holds v → ((∀ l ∈ more, l.eval v = true) ↔ a.eval v = true) := by
  unfold Circuit.require
  by_cases hskip : (c.options.constProp && a == Literal.top) = true
  · rw [if_pos hskip]
    rw [Bool.and_eq_true, beq_iff_eq] at hskip
    refine ⟨[], by simpa using h, fun v hv => ?_⟩
    rw [hskip.2]
    simp [Literal.eval_top (h.eval_constant hv)]
  · rw [if_neg hskip]
    exact ⟨[a], h.addUnit ha, fun v _ => by simp⟩

/-- A circuit says of a log that its inputs are the netlist's, that its literals have their
values, and that what its operations require is the case. -/
structure Session.Explains (log : List Entry) (c : Circuit) (net : Netlist)
    (required : List Literal) : Prop where
  fits : c.Fits net required
  input_iff : ∀ x : Nat, net[x]? = some .input ↔ x ∈ inputs log
  faithful : ∀ v, net.Holds v → ∀ x ∈ log, x.Faithful v
  required_iff : ∀ v, net.Holds v →
    ((∀ l ∈ required, l.eval v = true) ↔ ∀ x ∈ log, x.Satisfied v)

namespace Session

variable {options : GateOptions} {log : List Entry} {c c' : Circuit} {net net' : Netlist}
  {required more : List Literal}

/-- One more operation, from what its part of the netlist and its requirements say. -/
theorem Explains.concat {x : Entry} (h : Explains log c net required) (hnet : net <+: net')
    (hfits : c'.Fits net' (required ++ more))
    (hinput : ∀ y : Nat, net'[y]? = some .input ↔ net[y]? = some .input ∨ x.input? = some y)
    (hfaithful : ∀ v, net'.Holds v → x.Faithful v)
    (hmore : ∀ v, net'.Holds v → ((∀ l ∈ more, l.eval v = true) ↔ x.Satisfied v)) :
    Explains (log ++ [x]) c' net' (required ++ more) where
  fits := hfits
  input_iff y := by
    rw [hinput, h.input_iff, inputs, inputs, List.filterMap_append, List.mem_append]
    simp
  faithful v hv y hy := by
    rcases List.mem_append.1 hy with hy | hy
    · exact h.faithful v (hv.of_isPrefix hnet) y hy
    · exact List.mem_singleton.1 hy ▸ hfaithful v hv
  required_iff v hv := by
    rw [List.forall_mem_append, List.forall_mem_append, hmore v hv,
      h.required_iff v (hv.of_isPrefix hnet), List.forall_mem_singleton]

/-- Gates are no inputs. -/
theorem getElem?_append_gates {keys : List GateKey} (x : Nat) :
    (net ++ keys.map .gate)[x]? = some .input ↔ net[x]? = some .input := by
  rw [List.getElem?_append]
  split
  · rfl
  · rename_i hx
    rw [List.getElem?_map, List.getElem?_eq_none (Nat.not_lt.1 hx)]
    cases keys[x - net.length]? <;> simp

/-- More gates explain the same log. -/
theorem Explains.addGates (h : Explains log c net required) {keys : List GateKey}
    (hfits : c'.Fits (net ++ keys.map .gate) required) :
    Explains log c' (net ++ keys.map .gate) required where
  fits := hfits
  input_iff x := by rw [getElem?_append_gates, h.input_iff]
  faithful v hv := h.faithful v (hv.of_isPrefix (List.prefix_append ..))
  required_iff v hv := h.required_iff v (hv.of_isPrefix (List.prefix_append ..))

/-- One more gate. -/
theorem Explains.gate (h : Explains log c net required) {operation : Operation Literal}
    (hgate : operation.IsGate) (hlt : ∀ l ∈ operation.operands, l.var < net.length) :
    ∃ net', Explains (log ++ [⟨operation, (operation.build c).1⟩]) (operation.build c).2 net'
      required := by
  obtain ⟨keys, hfits, hfaithful⟩ :=
    Operation.addsGates_build h.fits.constant hgate hlt c required h.fits
  have hinput : Entry.input? ⟨operation, (operation.build c).1⟩ = none := by
    cases operation <;> first | rfl | exact hgate.elim
  have hsatisfied : ∀ v, Entry.Satisfied ⟨operation, (operation.build c).1⟩ v := by
    intro v
    cases operation <;> first | rfl | exact hgate.elim
  have hlog : Explains _ _ _ (required ++ []) :=
    (h.addGates hfits).concat List.prefix_rfl (by simpa using hfits)
      (fun y => by simp [hinput]) hfaithful (fun v _ => by simpa using hsatisfied v)
  rw [List.append_nil] at hlog
  exact ⟨_, hlog⟩

/-- One more literal that is required. -/
theorem Explains.require (h : Explains log c net required) (operation : Operation Literal)
    {a : Literal} (ha : a.var < net.length) (hinput : operation ≠ .newVariable)
    (hresult : ∀ v, (operation.map (·.eval v)).result? = none)
    (hsatisfied : ∀ v, net.Holds v →
      (a.eval v = true ↔ (operation.map (·.eval v)).satisfied = true)) :
    ∃ required', Explains (log ++ [⟨operation, none⟩]) (Circuit.require a c).2 net required' := by
  obtain ⟨more, hfits, hmore⟩ := h.fits.require ha
  refine ⟨required ++ more, h.concat List.prefix_rfl hfits (fun y => ?_) (fun v _ p hp => ?_)
    fun v hv => (hmore v hv).trans (hsatisfied v hv)⟩
  · cases operation <;> simp_all [Entry.input?]
  · simp [hresult] at hp

/-- Every session's circuit says what its operations mean. -/
theorem exists_explains (h : Session options log c) :
    ∃ net required, Explains log c net required := by
  induction h with
  | start =>
    refine ⟨[.constant], [], Circuit.fits_initial options, fun x => ?_, by simp, by simp⟩
    cases x <;> simp [inputs]
  | @step log c operation before operands_lt ih =>
    obtain ⟨net, required, h₀⟩ := ih
    rw [h₀.fits.numVars_eq] at operands_lt
    have hgate : operation.IsGate → ∃ net required, Explains
        (log ++ [⟨operation, (operation.build c).1⟩]) (operation.build c).2 net required := by
      intro hgate
      obtain ⟨net', h⟩ := h₀.gate hgate operands_lt
      exact ⟨net', required, h⟩
    cases operation with
    | binary | select | andAll | orAll => exact hgate trivial
    | newVariable =>
      obtain ⟨hout, hfits⟩ := h₀.fits.fresh
      have hfits : (Operation.newVariable.build c).2.Fits (net ++ [.input]) (required ++ []) := by
        rw [List.append_nil]
        exact hfits
      refine ⟨net ++ [.input], required ++ [], h₀.concat (List.prefix_append ..) hfits
        (fun y => ?_) (fun v _ p hp => ?_) fun v _ => ?_⟩
      · rw [Netlist.getElem?_concat]
        show _ ↔ _ ∨ some (Circuit.fresh _).1.var = some y
        rw [hout]
        simp [eq_comm]
      · simp [Operation.map, Operation.result?] at hp
      · simp [Entry.Satisfied, Operation.map, Operation.satisfied]
    | require a =>
      obtain ⟨required', h⟩ := h₀.require (.require a)
        (operands_lt a (by simp [Operation.operands])) (by simp) (fun _ => rfl) fun _ _ => Iff.rfl
      exact ⟨net, required', h⟩
    | requireEqual a b =>
      -- the literal of the equality comes first, and is required as any other
      obtain ⟨keys, hfits, heq⟩ := Circuit.computes_iff net a b
        (operands_lt a (by simp [Operation.operands]))
        (operands_lt b (by simp [Operation.operands])) _ required h₀.fits
      obtain ⟨required', h⟩ := (h₀.addGates hfits).require (.requireEqual a b)
        heq.lt (by simp) (fun _ => rfl) fun v hv => by
          rw [heq.eval_eq v hv]
          rfl
      exact ⟨_, required', h⟩

/-- **A session's formula says what its operations mean.** Its clauses mention only variables that
it handed out, and in every model each literal that an operation handed out has the value of the
operation. Each variable is the constant, an input or a gate on earlier variables, and the models
are the assignments that follow these sources and satisfy what was required. Values of the inputs
therefore determine all others; every literal then has the value of its operation, and there is
exactly one model with these inputs if everything required is true, and otherwise none. -/
theorem models_exact (h : Session options log c) :
    c.formula.Scoped ∧
    (∀ v, c.formula.eval v = true → ∀ x ∈ log, x.Faithful v) ∧
    ∃ net : Netlist, net.length = c.formula.numVars ∧ net[0]? = some .constant ∧ net.Ordered ∧
      (∀ x : Nat, net[x]? = some .input ↔ x ∈ inputs log) ∧
      (∀ v, c.formula.eval v = true ↔ net.Holds v ∧ ∀ x ∈ log, x.Satisfied v) ∧
      ∀ v : Valuation, (∀ x ∈ inputs log, net.settle v x = v x) ∧
        (∀ x ∈ log, x.Faithful (net.settle v)) ∧
        ((∀ x ∈ log, x.Satisfied (net.settle v)) →
          ∃! m, m ∈ c.formula.models ∧ ∀ x ∈ inputs log, Cnf.extend m x = v x) ∧
        ((¬∀ x ∈ log, x.Satisfied (net.settle v)) →
          ¬∃ m, m ∈ c.formula.models ∧ ∀ x ∈ inputs log, Cnf.extend m x = v x) := by
  obtain ⟨net, required, h₀⟩ := h.exists_explains
  have hmodels : ∀ v, c.formula.eval v = true ↔ net.Holds v ∧ ∀ x ∈ log, x.Satisfied v := by
    intro v
    rw [h₀.fits.eval_iff]
    exact and_congr_right fun hv => h₀.required_iff v hv
  refine ⟨h₀.fits.formula_scoped, fun v hv => h₀.faithful v ((hmodels v).1 hv).1, net,
    h₀.fits.numVars_eq.symm, h₀.fits.constant, h₀.fits.ordered, h₀.input_iff, hmodels,
    fun v => ?_⟩
  have hsettle := Netlist.holds_settle h₀.fits.ordered v
  refine ⟨fun x hx => Netlist.settle_of_input v ((h₀.input_iff x).2 hx), h₀.faithful _ hsettle,
    fun hsatisfied => ?_, fun hsatisfied => ?_⟩
  · have hunique := h₀.fits.existsUnique_model v ((h₀.required_iff _ hsettle).2 hsatisfied)
    simpa only [h₀.input_iff] using hunique
  · have hnone := h₀.fits.not_exists_model v (mt (h₀.required_iff _ hsettle).1 hsatisfied)
    simpa only [h₀.input_iff] using hnone

/-- Two inputs whose conjunction must be false. The disjunction of their negations is the
conjunction's gate again. -/
theorem models_exact_shared_gate :
    ∃ c, Session {} [⟨.newVariable, some ⟨1, true⟩⟩, ⟨.newVariable, some ⟨2, true⟩⟩,
        ⟨.binary .and ⟨1, true⟩ ⟨2, true⟩, some ⟨3, true⟩⟩,
        ⟨.binary .or ⟨2, false⟩ ⟨1, false⟩, some ⟨3, false⟩⟩,
        ⟨.require ⟨3, false⟩, none⟩] c ∧ c.formula.Scoped ∧
      (∃! m, m ∈ c.formula.models ∧ ∀ x ∈ [1, 2], Cnf.extend m x = (x == 1)) ∧
      ¬∃ m, m ∈ c.formula.models ∧ ∀ x ∈ [1, 2], Cnf.extend m x = true := by
  obtain ⟨c, h⟩ : ∃ c, Session {} [⟨.newVariable, some ⟨1, true⟩⟩, ⟨.newVariable, some ⟨2, true⟩⟩,
      ⟨.binary .and ⟨1, true⟩ ⟨2, true⟩, some ⟨3, true⟩⟩,
      ⟨.binary .or ⟨2, false⟩ ⟨1, false⟩, some ⟨3, false⟩⟩, ⟨.require ⟨3, false⟩, none⟩] c :=
    ⟨_, ((((Session.start.step .newVariable (by decide)).step .newVariable (by decide)).step
      (.binary .and ⟨1, true⟩ ⟨2, true⟩) (by decide)).step
      (.binary .or ⟨2, false⟩ ⟨1, false⟩) (by decide)).step (.require ⟨3, false⟩) (by decide)⟩
  obtain ⟨hscoped, -, net, -, -, -, -, -, hmodels⟩ := models_exact h
  -- the required literal has the negated value of the conjunction of the inputs
  have hconjunction : ∀ v, net.settle v 3 = (v 1 && v 2) := by
    intro v
    obtain ⟨hinput, hfaithful, -⟩ := hmodels v
    obtain ⟨l, hl, heval⟩ := hfaithful ⟨.binary .and ⟨1, true⟩ ⟨2, true⟩, some ⟨3, true⟩⟩
      (by simp) _ rfl
    obtain rfl := Option.some.inj hl
    rw [← hinput 1 (by decide), ← hinput 2 (by decide)]
    simpa [BinaryGate.eval] using heval
  refine ⟨c, h, hscoped, (hmodels fun x => x == 1).2.2.1 ?_, (hmodels fun _ => true).2.2.2 ?_⟩
  · simp [Entry.Satisfied, Operation.map, Operation.satisfied, Literal.eval, hconjunction]
  · intro hall
    have hrequired := hall ⟨.require ⟨3, false⟩, none⟩ (by simp)
    simp [Entry.Satisfied, Operation.map, Operation.satisfied, Literal.eval, hconjunction]
      at hrequired

end Session

end BitUnroll
