import BitUnroll.Proofs.Circuit.Session
import BitUnroll.Proofs.Word.Comparison

/-!
# The values of literals

A circuit may be built on any literals, also on those of variables that it never handed out, and
a gate may take for its output a variable that was used before. What such a circuit's formula says
need not be what its gates say, but it says no less: in every model each gate still has the value of
its truth function. So under an assignment a circuit may be compared with the one on which every
literal is the constant of its value, and every gate is folded.

## Main definitions

* `Circuit.Reached`: the circuits that operations on any literals lead to.
* `Circuit.Explained`: every model follows the gates that are shared.
* `Comparison.values`: a circuit beside one that folds, with constants for literals.

## Main statements

* `Circuit.Reached.explained`: the models of a circuit follow its gates.
* `Comparison.lawful_values`: gates and requirements keep the values of literals.
-/

namespace BitUnroll

namespace Circuit

/-- In every model of a circuit's formula the constant is true, and the output of each gate that is
entered for sharing has the value of the gate. -/
structure Explained (c : Circuit) : Prop where
  constant : ∀ v, c.formula.eval v = true → v 0 = true
  gates : ∀ (key : GateKey) (out : Literal), c.gates[key]? = some out →
    ∀ v, c.formula.eval v = true → out.eval v = key.op.eval (key.left.eval v) (key.right.eval v)

/-- A circuit on which operations were performed, on literals of any variables. -/
inductive Reached (options : GateOptions) : Circuit → Prop
  | start : Reached options (.initial options)
  | step {c : Circuit} (operation : Operation Literal) (before : Reached options c) :
      Reached options (operation.build c).2

variable {c : Circuit}

theorem explained_initial (options : GateOptions) : (initial options).Explained where
  constant v hv := by simpa [initial, Cnf.eval, Clause.eval, Literal.eval, Literal.top] using hv
  gates key out h := by simp [initial] at h

theorem Explained.fresh (h : c.Explained) : (Circuit.fresh c).2.Explained := ⟨h.constant, h.gates⟩

/-- More clauses leave fewer models. -/
theorem Explained.require (h : c.Explained) (a : Literal) :
    (Circuit.require a c).2.Explained ∧
      ∀ v, (Circuit.require a c).2.formula.eval v = true → c.formula.eval v = true := by
  unfold Circuit.require
  split
  · exact ⟨h, fun _ hv => hv⟩
  · have hle : ∀ v, (c.formula.addClause [a]).eval v = true → c.formula.eval v = true := by
      intro v hv
      rw [Cnf.eval_addClause, Bool.and_eq_true] at hv
      exact hv.1
    exact ⟨⟨fun v hv => h.constant v (hle v hv), fun key out hout v hv =>
      h.gates key out hout v (hle v hv)⟩, hle⟩

/-- A gate that is defined has its value wherever its clauses are true. -/
theorem Explained.defineGate (h : c.Explained) (key : GateKey) :
    (Circuit.defineGate key c).2.Explained ∧
      ∀ v, (Circuit.defineGate key c).2.formula.eval v = true → c.formula.eval v = true ∧
        (Circuit.defineGate key c).1.eval v =
          key.op.eval (key.left.eval v) (key.right.eval v) := by
  have hout : ∀ v, (Circuit.defineGate key c).2.formula.eval v = true →
      c.formula.eval v = true ∧ (Circuit.defineGate key c).1.eval v =
        key.op.eval (key.left.eval v) (key.right.eval v) := by
    intro v hv
    simp only [Circuit.defineGate, Cnf.eval_addClauses, Cnf.eval_newVar, GateOp.eval_define,
      Bool.and_eq_true, beq_iff_eq] at hv
    exact hv
  refine ⟨⟨fun v hv => h.constant v (hout v hv).1, fun other out hother v hv => ?_⟩, hout⟩
  have hold : c.gates[other]? = some out →
      out.eval v = other.op.eval (other.left.eval v) (other.right.eval v) := fun hother =>
    h.gates other out hother v (hout v hv).1
  simp only [Circuit.defineGate] at hother
  split at hother
  · rw [Std.TreeMap.getElem?_insert] at hother
    split at hother
    · rename_i hkey
      obtain rfl := Std.LawfulEqCmp.eq_of_compare hkey
      exact Option.some.inj hother ▸ (hout v hv).2
    · exact hold hother
  · exact hold hother

/-- A gate has its value in every model, whether it is folded, shared or defined. -/
theorem Explained.gate (h : c.Explained) (op : GateOp) (a b : Literal) :
    (Circuit.gate op a b c).2.Explained ∧
      ∀ v, (Circuit.gate op a b c).2.formula.eval v = true → c.formula.eval v = true ∧
        (Circuit.gate op a b c).1.eval v = op.eval (a.eval v) (b.eval v) := by
  rcases answers_or_lacks c op a b with ⟨l, hl⟩ | hl
  · rw [hl.gate_eq]
    refine ⟨h, fun v hv => ⟨hv, ?_⟩⟩
    rcases hl with ⟨-, hfold⟩ | ⟨-, -, hshared⟩
    · exact GateOp.eval_of_fold? hfold (h.constant v hv)
    · rw [h.gates _ _ hshared v hv, eval_ofLiterals]
  · rw [hl.gate_eq]
    obtain ⟨hexplained, hout⟩ := h.defineGate (GateKey.ofLiterals op a b)
    refine ⟨hexplained, fun v hv => ⟨(hout v hv).1, ?_⟩⟩
    rw [(hout v hv).2, eval_ofLiterals]

end Circuit

/-! ## Beside the constants -/

/-- Gates on constants are constants. -/
theorem GateOp.fold?_ofBool (op : GateOp) (p q : Bool) :
    op.fold? (.ofBool p) (.ofBool q) = some (.ofBool (op.eval p q)) := by
  cases op <;> cases p <;> cases q <;> rfl

namespace Comparison

/-- A circuit beside one that folds, where a literal has its value under an assignment for a
constant. A world says that the assignment is a model so far. -/
def values (v : Valuation) : Comparison where
  World := Prop
  le w w' := w' → w
  circuits w c d :=
    c.Explained ∧ (c.formula.eval v = true → w) ∧ d.options.constProp = true
  literals w a a' := ∃ p, a' = .ofBool p ∧ (w → a.eval v = p)

/-- Literals of all variables have values. -/
theorem literals_values (v : Valuation) (w : Prop) (l : Literal) :
    (values v).literals w l (.ofBool (l.eval v)) := ⟨_, rfl, fun _ => rfl⟩

/-- The constants for the bits of a word. -/
theorem exists_bits_of_words {v : Valuation} {w : Prop} {a a' : Word}
    (h : (values v).words w a a') :
    ∃ ps : Bits, a' = ps.map .ofBool ∧ ps.length = a.length ∧ (w → a.bits v = ps) := by
  induction h with
  | nil => exact ⟨[], rfl, rfl, fun _ => rfl⟩
  | cons hl _ ih =>
    obtain ⟨p, rfl, hp⟩ := hl
    obtain ⟨ps, rfl, hlength, hps⟩ := ih
    refine ⟨p :: ps, rfl, congrArg (· + 1) hlength, fun hw => ?_⟩
    rw [Word.bits_cons, hp hw, hps hw]

/-- Gates and requirements keep the values of literals. -/
theorem lawful_values {v : Valuation} (hv : v 0 = true) : (values v).Lawful where
  refl _ h := h
  trans h h' := h ∘ h'
  mono hle h := by
    obtain ⟨p, rfl, hp⟩ := h
    exact ⟨p, rfl, fun hw => hp (hle hw)⟩
  constant w value := ⟨value, rfl, fun _ => Literal.eval_ofBool hv value⟩
  neg h := by
    obtain ⟨p, rfl, hp⟩ := h
    exact ⟨!p, rfl, fun hw => by rw [Literal.eval_neg, hp hw]⟩
  gate op := by
    rintro w a b _ _ ⟨p, rfl, hp⟩ ⟨q, rfl, hq⟩ c d ⟨hc, hw, hd⟩
    obtain ⟨hexplained, hout⟩ := hc.gate op a b
    have hfold : Circuit.gate op (.ofBool p) (.ofBool q) d = (.ofBool (op.eval p q), d) :=
      Circuit.Answers.gate_eq (.inl ⟨hd, op.fold?_ofBool p q⟩)
    refine ⟨(Circuit.gate op a b c).2.formula.eval v = true, fun h => hw (hout v h).1, ?_⟩
    rw [hfold]
    refine ⟨⟨hexplained, fun h => h, hd⟩, op.eval p q, rfl, fun h => ?_⟩
    have hbefore := hw (hout v h).1
    rw [(hout v h).2, hp hbefore, hq hbefore]
  require := by
    rintro w a a' - c d ⟨hc, hw, hd⟩
    obtain ⟨hexplained, hle⟩ := hc.require a
    refine ⟨w, fun h => h, ⟨hexplained, fun h => hw (hle v h), ?_⟩, trivial⟩
    unfold Circuit.require
    split <;> exact hd

end Comparison

/-- Performing an operation keeps a comparison, except for a fresh variable, which is no
constant. -/
theorem Comparison.Lawful.build {K : Comparison} (hK : K.Lawful) {w : K.World}
    {f : Literal → Literal} (operation : Operation Literal) (hnew : operation ≠ .newVariable)
    (hf : ∀ l, K.literals w l (f l)) :
    K.Builds w operation.build (operation.map f).build fun _ _ _ => True := by
  have hresult : ∀ {α β : Type} {x y : Build Literal} {g : Literal → α} {h : Literal → β},
      K.Builds w x y K.literals → K.Builds w (g <$> x) (h <$> y) fun _ _ _ => True :=
    fun hx => hK.bind hx fun _ _ _ _ _ => hK.pure trivial
  have hlist : ∀ ls : List Literal, List.Forall₂ (K.literals w) ls (ls.map f) := by
    intro ls
    rw [List.forall₂_map_right_iff, List.forall₂_same]
    exact fun l _ => hf l
  cases operation with
  | newVariable => exact absurd rfl hnew
  | binary gate a b =>
    cases gate with
    | and => exact hresult (hK.respects_and w _ _ _ _ (hf a) (hf b))
    | or => exact hresult (hK.respects_or w _ _ _ _ (hf a) (hf b))
    | xor => exact hresult (hK.respects_xor w _ _ _ _ (hf a) (hf b))
    | implies => exact hresult (hK.respects_implies w _ _ _ _ (hf a) (hf b))
    | iff => exact hresult (hK.respects_iff w _ _ _ _ (hf a) (hf b))
  | select condition a b => exact hresult (hK.select (hf condition) (hf a) (hf b))
  | andAll ls => exact hresult (hK.andAll (hlist ls))
  | orAll ls => exact hresult (hK.orAll (hlist ls))
  | require a => exact hK.bind (hK.require w _ _ (hf a)) fun _ _ _ _ _ => hK.pure trivial
  | requireEqual a b =>
    refine hK.bind (hK.bind (hK.respects_iff w _ _ _ _ (hf a) (hf b)) fun w' l l' _ hl =>
      hK.require w' _ _ hl) fun _ _ _ _ _ => hK.pure trivial

/-- The models of a circuit on any literals follow its gates. -/
theorem Circuit.Reached.explained {options : GateOptions} {c : Circuit}
    (h : c.Reached options) : c.Explained := by
  induction h with
  | start => exact explained_initial options
  | @step c operation before ih =>
    by_cases hnew : operation = .newVariable
    · subst hnew
      exact ih.fresh
    · have hK := Comparison.lawful_values (v := fun _ => true) rfl
      obtain ⟨w, -, ⟨hexplained, -⟩, -⟩ := hK.build (w := True) operation hnew
        (fun l => Comparison.literals_values _ _ l) c (.initial {}) ⟨ih, fun _ => trivial, rfl⟩
      exact hexplained

/-- Operations on literals that were handed out are operations on literals. -/
theorem Session.reached {options : GateOptions} {log : List Entry} {c : Circuit}
    (h : Session options log c) : c.Reached options := by
  induction h with
  | start => exact .start
  | step operation _ _ ih => exact ih.step operation

end BitUnroll
