import BitUnroll.Proofs.Circuit.Netlist

/-!
# How circuits grow

A circuit fits a netlist and a list of required literals if its formula says no more and no less
than that the netlist is followed and the literals are true. The three ways in which a circuit
grows extend one or the other: a fresh variable is one more input, a gate that is neither folded
nor shared is one more gate, and a unit clause is one more required literal.

## Main definitions

* `Circuit.Fits`: what a circuit's formula says.
* `Circuit.Answers`, `Circuit.Lacks`: whether a gate needs a variable of its own.
* `Circuit.Kept`: a later circuit shares the gates of an earlier one.

## Main statements

* `Circuit.Fits.fresh`, `Circuit.Fits.defineGate`, `Circuit.Fits.addUnit`: the three ways to grow.
* `Circuit.answers_or_lacks`: what building a gate can do.
* `Circuit.gate_again`: a gate that is built once more.
-/

namespace BitUnroll

namespace Cnf

variable {f : Cnf}

theorem Scoped.newVar (hf : f.Scoped) : f.newVar.2.Scoped := fun c hc l hl =>
  Nat.lt_succ_of_lt (hf c hc l hl)

theorem Scoped.addClauses {cs : List Clause} (hf : f.Scoped)
    (hcs : ∀ c ∈ cs, ∀ l ∈ c, l.var < f.numVars) : (f.addClauses cs).Scoped := by
  intro c hc
  rw [← Array.mem_toList_iff, toList_clauses_addClauses] at hc
  rcases List.mem_append.1 hc with hc | hc
  · exact hf c (Array.mem_toList_iff.1 hc)
  · exact hcs c hc

theorem addClause_eq_addClauses (f : Cnf) (c : Clause) : f.addClause c = f.addClauses [c] := by
  simp [addClause, addClauses]

end Cnf

namespace GateOp

/-- The clauses of a gate mention its output and its operands. -/
theorem var_of_mem_define {op : GateOp} {out a b l : Literal} {c : Clause}
    (hc : c ∈ op.define out a b) (hl : l ∈ c) :
    l.var = out.var ∨ l.var = a.var ∨ l.var = b.var := by
  cases op <;> simp only [define, List.mem_cons, List.not_mem_nil, or_false] at hc <;>
    rcases hc with rfl | rfl | rfl | rfl <;> simp at hl <;>
    rcases hl with rfl | rfl | rfl <;> simp

/-- The number of clauses of a gate does not depend on its literals. -/
theorem length_define (op : GateOp) (out a b out' a' b' : Literal) :
    (op.define out a b).length = (op.define out' a' b').length := by
  cases op <;> rfl

end GateOp

/-- The gate on two literals, in the order of literals. -/
def GateKey.ofLiterals (op : GateOp) (a b : Literal) : GateKey :=
  ⟨op, (Literal.sort a b).1, (Literal.sort a b).2⟩

namespace Literal

theorem sort_comm (a b : Literal) : sort a b = sort b a := by
  unfold sort
  by_cases hab : a.code ≤ b.code <;> by_cases hba : b.code ≤ a.code
  · rw [code_injective (Nat.le_antisymm hab hba)]
  · rw [if_pos hab, if_neg hba]
  · rw [if_neg hab, if_pos hba]
  · omega

theorem sort_cases (a b : Literal) : sort a b = (a, b) ∨ sort a b = (b, a) := by
  unfold sort
  split
  · exact .inl rfl
  · exact .inr rfl

@[simp] theorem eval_positive (x : Nat) (v : Valuation) : (⟨x, true⟩ : Literal).eval v = v x := by
  simp [eval]

theorem eval_top {v : Valuation} (h : v 0 = true) : top.eval v = true := eval_ofBool h true

theorem eval_bottom {v : Valuation} (h : v 0 = true) : bottom.eval v = false := eval_ofBool h false

end Literal

namespace Circuit

/-- The formula of a circuit says that an assignment follows a netlist and makes some literals
true. The gates entered for sharing are gates of the netlist. -/
structure Fits (c : Circuit) (net : Netlist) (required : List Literal) : Prop where
  numVars_eq : c.formula.numVars = net.length
  constant : net[0]? = some .constant
  ordered : net.Ordered
  required_lt : ∀ l ∈ required, l.var < net.length
  formula_scoped : c.formula.Scoped
  eval_iff : ∀ v, c.formula.eval v = true ↔ net.Holds v ∧ ∀ l ∈ required, l.eval v = true
  gates : ∀ (key : GateKey) (out : Literal), c.gates[key]? = some out →
    out.sign = true ∧ net[out.var]? = some (.gate key)

variable {c : Circuit} {net : Netlist} {required : List Literal}

theorem Fits.length_pos (h : c.Fits net required) : 0 < net.length :=
  (List.getElem?_eq_some_iff.1 h.constant).1

/-- The constant is true wherever a netlist is followed. -/
theorem Fits.eval_constant (h : c.Fits net required) {v : Valuation} (hv : net.Holds v) :
    v 0 = true := hv 0 .constant h.constant

theorem fits_initial (options : GateOptions) : (initial options).Fits [.constant] [] where
  numVars_eq := rfl
  constant := rfl
  ordered := by
    intro x s hx
    cases x <;> simp at hx
    subst hx
    trivial
  required_lt := by simp
  formula_scoped := by
    intro c hc l hl
    simp only [initial, List.mem_toArray, List.mem_singleton] at hc
    simp only [hc, List.mem_singleton] at hl
    simp [hl, initial, Literal.top]
  eval_iff v := by
    have hone : Netlist.Holds [.constant] v ↔ v 0 = true := by
      rw [← List.nil_append [Source.constant], Netlist.holds_concat]
      simp [Source.value]
    rw [hone]
    simp [initial, Cnf.eval, Clause.eval, Literal.top]
  gates key out h := by simp [initial] at h

/-- A fresh variable is one more input. -/
theorem Fits.fresh (h : c.Fits net required) :
    (Circuit.fresh c).1 = ⟨net.length, true⟩ ∧
      (Circuit.fresh c).2.Fits (net ++ [.input]) required := by
  refine ⟨by rw [← h.numVars_eq]; rfl, ?_⟩
  exact {
    numVars_eq := by simp [Circuit.fresh, h.numVars_eq]
    constant := Netlist.getElem?_of_isPrefix (List.prefix_append ..) h.constant
    ordered := Netlist.ordered_concat.2 ⟨h.ordered, trivial⟩
    required_lt := fun l hl => by
      have := h.required_lt l hl
      simp; omega
    formula_scoped := h.formula_scoped.newVar
    eval_iff := fun v => by
      simp only [Circuit.fresh, Cnf.eval_newVar, h.eval_iff, Netlist.holds_concat, Source.value,
        and_true]
    gates := fun key out hout => by
      obtain ⟨hsign, hnet⟩ := h.gates key out hout
      exact ⟨hsign, Netlist.getElem?_of_isPrefix (List.prefix_append ..) hnet⟩ }

/-- A unit clause is one more required literal. -/
theorem Fits.addUnit (h : c.Fits net required) {a : Literal} (ha : a.var < net.length) :
    (Circuit.addUnit a c).2.Fits net (required ++ [a]) where
  numVars_eq := h.numVars_eq
  constant := h.constant
  ordered := h.ordered
  required_lt l hl := by
    rcases List.mem_append.1 hl with hl | hl
    · exact h.required_lt l hl
    · exact List.mem_singleton.1 hl ▸ ha
  formula_scoped := by
    show (c.formula.addClause [a]).Scoped
    rw [Cnf.addClause_eq_addClauses]
    refine h.formula_scoped.addClauses fun clause hclause l hl => ?_
    rw [List.mem_singleton.1 hclause] at hl
    rw [List.mem_singleton.1 hl, h.numVars_eq]
    exact ha
  eval_iff v := by
    simp only [Circuit.addUnit, Cnf.eval_addClause, Bool.and_eq_true, h.eval_iff, Clause.eval,
      List.any_cons, List.any_nil, Bool.or_false, List.forall_mem_append, List.forall_mem_singleton,
      and_assoc]
  gates := h.gates

/-- A gate that is defined is one more gate, and its output is the new variable. -/
theorem Fits.defineGate (h : c.Fits net required) {key : GateKey}
    (hleft : key.left.var < net.length) (hright : key.right.var < net.length) :
    (Circuit.defineGate key c).1 = ⟨net.length, true⟩ ∧
      (Circuit.defineGate key c).2.Fits (net ++ [.gate key]) required := by
  refine ⟨by rw [← h.numVars_eq]; rfl, ?_⟩
  have hnet : net <+: net ++ [.gate key] := List.prefix_append ..
  exact {
    numVars_eq := by simp [Circuit.defineGate, h.numVars_eq]
    constant := Netlist.getElem?_of_isPrefix hnet h.constant
    ordered := Netlist.ordered_concat.2 ⟨h.ordered, hleft, hright⟩
    required_lt := fun l hl => by
      have := h.required_lt l hl
      simp; omega
    formula_scoped := by
      refine h.formula_scoped.newVar.addClauses fun clause hclause l hl => ?_
      have := h.numVars_eq
      rcases GateOp.var_of_mem_define hclause hl with hl | hl | hl <;>
        simp only [hl, Cnf.numVars_newVar] <;> omega
    eval_iff := fun v => by
      simp only [Circuit.defineGate, Cnf.eval_addClauses, Cnf.eval_newVar, Bool.and_eq_true,
        h.eval_iff, GateOp.eval_define, Netlist.holds_concat, Source.value, Literal.eval_positive,
        beq_iff_eq, h.numVars_eq, and_right_comm]
    gates := fun k out hout => by
      have hold : c.gates[k]? = some out → out.sign = true ∧
          (net ++ [.gate key])[out.var]? = some (.gate k) := by
        intro hout
        obtain ⟨hsign, hgate⟩ := h.gates k out hout
        exact ⟨hsign, Netlist.getElem?_of_isPrefix hnet hgate⟩
      simp only [Circuit.defineGate] at hout
      split at hout
      · rw [Std.TreeMap.getElem?_insert] at hout
        split at hout
        · rename_i hkey
          have hkey : key = k := Std.LawfulEqCmp.eq_of_compare hkey
          obtain rfl := Option.some.inj hout
          exact ⟨rfl, by simp [h.numVars_eq, hkey]⟩
        · exact hold hout
      · exact hold hout }

/-! ## Building a gate -/

variable {op : GateOp} {a b l : Literal}

/-- A circuit answers a gate without a new variable: the gate folds, or an equal one is shared. -/
def Answers (c : Circuit) (op : GateOp) (a b l : Literal) : Prop :=
  (c.options.constProp = true ∧ op.fold? a b = some l) ∨
    ((c.options.constProp = true → op.fold? a b = none) ∧ c.options.gateSharing = true ∧
      c.gates[GateKey.ofLiterals op a b]? = some l)

/-- A circuit neither folds nor shares a gate. -/
structure Lacks (c : Circuit) (op : GateOp) (a b : Literal) : Prop where
  fold : c.options.constProp = true → op.fold? a b = none
  shared : c.options.gateSharing = true → c.gates[GateKey.ofLiterals op a b]? = none

/-- A gate that is answered leaves the circuit as it is. -/
theorem Answers.gate_eq (h : c.Answers op a b l) : gate op a b c = (l, c) := by
  rcases h with ⟨hfold, h⟩ | ⟨hfold, hsharing, h⟩
  · simp only [gate, hfold, h, if_true]
  · have hnone : (if c.options.constProp then op.fold? a b else none) = none := by
      split
      · exact hfold ‹_›
      · rfl
    have hshared : c.shared? ⟨op, (Literal.sort a b).1, (Literal.sort a b).2⟩ = some l := by
      rw [shared?, if_pos hsharing]
      exact h
    simp only [gate, hnone, sortedGate, hshared]

/-- A gate that is not answered is defined. -/
theorem Lacks.gate_eq (h : c.Lacks op a b) :
    gate op a b c = Circuit.defineGate (GateKey.ofLiterals op a b) c := by
  have hnone : (if c.options.constProp then op.fold? a b else none) = none := by
    split
    · exact h.fold ‹_›
    · rfl
  have hshared : c.shared? ⟨op, (Literal.sort a b).1, (Literal.sort a b).2⟩ = none := by
    unfold shared?
    split
    · exact h.shared ‹_›
    · rfl
  simp only [gate, hnone, sortedGate, hshared]
  rfl

/-- What building a gate can do. -/
theorem answers_or_lacks (c : Circuit) (op : GateOp) (a b : Literal) :
    (∃ l, c.Answers op a b l) ∨ c.Lacks op a b := by
  by_cases hfold : c.options.constProp = true → op.fold? a b = none
  · by_cases hshared : c.options.gateSharing = true → c.gates[GateKey.ofLiterals op a b]? = none
    · exact .inr ⟨hfold, hshared⟩
    · obtain ⟨hsharing, hkey⟩ := Classical.not_imp.1 hshared
      obtain ⟨l, hl⟩ := Option.ne_none_iff_exists'.1 hkey
      exact .inl ⟨l, .inr ⟨hfold, hsharing, hl⟩⟩
  · obtain ⟨hprop, hsome⟩ := Classical.not_imp.1 hfold
    obtain ⟨l, hl⟩ := Option.ne_none_iff_exists'.1 hsome
    exact .inl ⟨l, .inl ⟨hprop, hl⟩⟩

/-! ## Shared gates -/

/-- A later circuit has the same options, and the gates that the earlier one entered for sharing
have the outputs that they had. -/
structure Kept (c d : Circuit) : Prop where
  options_eq : d.options = c.options
  gates : ∀ (key : GateKey) (out : Literal), c.gates[key]? = some out → d.gates[key]? = some out

variable {d e : Circuit}

theorem Kept.refl (c : Circuit) : c.Kept c := ⟨rfl, fun _ _ h => h⟩

theorem Kept.trans (h : c.Kept d) (h' : d.Kept e) : c.Kept e :=
  ⟨h'.options_eq.trans h.options_eq, fun key out hout => h'.gates key out (h.gates key out hout)⟩

/-- A gate is only defined if no equal one is there to be shared. -/
theorem Lacks.kept (h : c.Lacks op a b) :
    c.Kept (Circuit.defineGate (GateKey.ofLiterals op a b) c).2 := by
  refine ⟨rfl, fun key out hkey => ?_⟩
  simp only [Circuit.defineGate]
  split
  · rename_i hsharing
    rw [Std.TreeMap.getElem?_insert, if_neg, hkey]
    intro heq
    rw [← Std.LawfulEqCmp.eq_of_compare heq, h.shared hsharing] at hkey
    cases hkey
  · exact hkey

/-- Answers stay when more gates are entered for sharing. -/
theorem Answers.mono (h : c.Answers op a b l) (hd : c.Kept d) : d.Answers op a b l := by
  unfold Answers at h ⊢
  rw [hd.options_eq]
  exact h.imp id fun ⟨hfold, hsharing, hkey⟩ => ⟨hfold, hsharing, hd.gates _ _ hkey⟩

/-- A gate that was defined is there to be shared. -/
theorem Lacks.answers_defineGate (h : c.Lacks op a b) (hsharing : c.options.gateSharing = true) :
    (Circuit.defineGate (GateKey.ofLiterals op a b) c).2.Answers op a b
      ⟨c.formula.numVars, true⟩ := by
  refine .inr ⟨h.fold, hsharing, ?_⟩
  simp [Circuit.defineGate, hsharing]

theorem kept_gate (op : GateOp) (a b : Literal) (c : Circuit) : c.Kept (gate op a b c).2 := by
  rcases answers_or_lacks c op a b with ⟨l, hl⟩ | hl
  · rw [hl.gate_eq]
    exact .refl c
  · rw [hl.gate_eq]
    exact hl.kept

theorem kept_fresh (c : Circuit) : c.Kept (Circuit.fresh c).2 := ⟨rfl, fun _ _ h => h⟩

theorem kept_require (a : Literal) (c : Circuit) : c.Kept (require a c).2 := by
  unfold require
  split
  · exact .refl c
  · exact ⟨rfl, fun _ _ h => h⟩

/-- Where gates are shared, a gate that was built is answered from then on. -/
theorem gate_again (hsharing : c.options.gateSharing = true)
    (h : (gate op a b c).2.Kept d) : gate op a b d = ((gate op a b c).1, d) := by
  rcases answers_or_lacks c op a b with ⟨l, hl⟩ | hl
  · rw [hl.gate_eq] at h ⊢
    exact (hl.mono h).gate_eq
  · rw [hl.gate_eq] at h ⊢
    exact ((hl.answers_defineGate hsharing).mono h).gate_eq

end Circuit

end BitUnroll
