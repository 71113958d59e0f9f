import BitUnroll.Proofs.Circuit.Growth
import Mathlib.Data.Set.Defs

/-!
# Models

The models of a formula as assignments to the variables that it has handed out, and no others.
Where a circuit fits a netlist, values of the inputs have exactly one model if the evaluation of
the netlist makes all required literals true, and none if it does not.

## Main statements

* `Circuit.Fits.existsUnique_model`, `Circuit.Fits.not_exists_model`: the two cases.
-/

namespace BitUnroll

namespace Cnf

/-- The assignment of values for the first variables. Variables beyond them are false. -/
def extend {n : Nat} (m : Fin n → Bool) : Valuation := fun x =>
  if h : x < n then m ⟨x, h⟩ else false

/-- The assignments to the variables handed out that make every clause true. -/
def models (f : Cnf) : Set (Fin f.numVars → Bool) := fun m => f.eval (extend m) = true

theorem extend_of_lt {n x : Nat} (m : Fin n → Bool) (hx : x < n) : extend m x = m ⟨x, hx⟩ := by
  simp [extend, hx]

theorem extend_restrict {n x : Nat} (v : Valuation) (hx : x < n) :
    extend (fun i : Fin n => v i) x = v x := by
  simp [extend, hx]

theorem mem_models {f : Cnf} {m : Fin f.numVars → Bool} :
    m ∈ f.models ↔ f.eval (extend m) = true := Iff.rfl

/-- The value of a formula is a matter of the variables that it has handed out. -/
theorem Scoped.eval_congr {f : Cnf} (hf : f.Scoped) {v w : Valuation}
    (h : ∀ x < f.numVars, v x = w x) : f.eval v = f.eval w := by
  have hclause : ∀ c ∈ f.clauses, Clause.eval c v = Clause.eval c w := by
    intro c hc
    unfold Clause.eval
    rw [Bool.eq_iff_iff, List.any_eq_true, List.any_eq_true]
    constructor
    · rintro ⟨l, hl, hlv⟩
      exact ⟨l, hl, by rwa [Literal.eval, ← h _ (hf c hc l hl)]⟩
    · rintro ⟨l, hl, hlw⟩
      exact ⟨l, hl, by rwa [Literal.eval, h _ (hf c hc l hl)]⟩
  rw [Bool.eq_iff_iff, eval, eval, Array.all_eq_true_iff_forall_mem,
    Array.all_eq_true_iff_forall_mem]
  constructor
  · intro hv c hc
    rw [← hclause c hc]
    exact hv c hc
  · intro hw c hc
    rw [hclause c hc]
    exact hw c hc

/-- A model, cut to the variables handed out. -/
theorem Scoped.restrict_mem_models {f : Cnf} (hf : f.Scoped) {v : Valuation} :
    (fun i : Fin f.numVars => v i) ∈ f.models ↔ f.eval v = true := by
  rw [mem_models, hf.eval_congr fun x hx => extend_restrict v hx]

end Cnf

namespace Circuit

variable {c : Circuit} {net : Netlist} {required : List Literal}

/-- A model that agrees with values of the inputs is the evaluation of the netlist. -/
theorem Fits.model_eq_settle (h : c.Fits net required) {m : Fin c.formula.numVars → Bool}
    (hm : m ∈ c.formula.models) {v : Valuation}
    (hv : ∀ x, net[x]? = some .input → Cnf.extend m x = v x) (i : Fin c.formula.numVars) :
    m i = net.settle v i := by
  have hholds := ((h.eval_iff _).1 hm).1
  have hlt : i.val < net.length := h.numVars_eq ▸ i.isLt
  rw [← hholds.eq_settle h.ordered hv i hlt, Cnf.extend_of_lt m i.isLt]

/-- Where the evaluation makes the required literals true, it is the only model with its
inputs. -/
theorem Fits.existsUnique_model (h : c.Fits net required) (v : Valuation)
    (hrequired : ∀ l ∈ required, l.eval (net.settle v) = true) :
    ∃! m, m ∈ c.formula.models ∧ ∀ x, net[x]? = some .input → Cnf.extend m x = v x := by
  refine ⟨fun i => net.settle v i, ⟨?_, fun x hx => ?_⟩, fun m ⟨hm, hinput⟩ => ?_⟩
  · rw [h.formula_scoped.restrict_mem_models, h.eval_iff]
    exact ⟨Netlist.holds_settle h.ordered v, hrequired⟩
  · have hlt : x < c.formula.numVars := h.numVars_eq ▸ (List.getElem?_eq_some_iff.1 hx).1
    rw [Cnf.extend_restrict _ hlt, Netlist.settle_of_input v hx]
  · funext i
    exact h.model_eq_settle hm hinput i

/-- Where the evaluation makes a required literal false, there is no model with its inputs. -/
theorem Fits.not_exists_model (h : c.Fits net required) (v : Valuation)
    (hrequired : ¬∀ l ∈ required, l.eval (net.settle v) = true) :
    ¬∃ m, m ∈ c.formula.models ∧ ∀ x, net[x]? = some .input → Cnf.extend m x = v x := by
  rintro ⟨m, hm, hinput⟩
  apply hrequired
  intro l hl
  have hlt := h.numVars_eq ▸ h.required_lt l hl
  have heval := ((h.eval_iff _).1 hm).2 l hl
  have hvar : Cnf.extend m l.var = net.settle v l.var := by
    rw [Cnf.extend_of_lt m hlt]
    exact h.model_eq_settle hm hinput ⟨l.var, hlt⟩
  rwa [Literal.eval, ← hvar]

end Circuit

end BitUnroll
