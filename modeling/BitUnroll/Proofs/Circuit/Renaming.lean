import BitUnroll.Proofs.Circuit.Denotation

/-!
# Renaming of literals

What an optimisation does to a circuit is to give some variables of the plain circuit a literal of
an earlier variable. A renaming says which literal of the optimised circuit stands for each
variable of the plain one. One circuit reduces to another under a renaming if the assignments that
follow the optimised circuit are, read through the renaming, assignments that follow the plain one,
and if whatever the plain circuit shares is answered by the optimised circuit as well. Building a
gate on both sides keeps this, with a renaming that only gets longer.

## Main definitions

* `Renaming`: a literal for each variable of a circuit.
* `Circuit.Reduction`: the optimised circuit says what the plain circuit says.
* `Build.Mirrors`: two computations that keep a reduction and hand out related results.

## Main statements

* `Circuit.mirrors_gate`: one gate, folded, shared or defined on either side.
-/

namespace BitUnroll

theorem Literal.eq_neg_comm {a b : Literal} : a = -b ↔ b = -a := by
  constructor <;> rintro rfl <;> simp

@[simp] theorem Cnf.size_clauses_addClauses (f : Cnf) (cs : List Clause) :
    (f.addClauses cs).clauses.size = f.clauses.size + cs.length := by
  rw [← Array.length_toList, Cnf.toList_clauses_addClauses, List.length_append,
    Array.length_toList]

/-- The literals that stand for the first variables of a circuit. -/
structure Renaming where
  size : Nat
  image : Nat → Literal

namespace Renaming

/-- The literal that stands for a literal. -/
def apply (r : Renaming) (l : Literal) : Literal := if l.sign then r.image l.var else -r.image l.var

/-- An assignment, read through a renaming. -/
def pull (r : Renaming) (v : Valuation) : Valuation := fun x => (r.image x).eval v

/-- One more variable, which a given literal stands for. -/
def extend (r : Renaming) (out : Literal) : Renaming where
  size := r.size + 1
  image := Function.update r.image r.size out

/-- A renaming has the variables of another one, and possibly more. -/
structure Extends (r r' : Renaming) : Prop where
  size_le : r.size ≤ r'.size
  image_eq : ∀ x < r.size, r'.image x = r.image x

/-- One literal stands for another. -/
structure Relates (r : Renaming) (a b : Literal) : Prop where
  lt : a.var < r.size
  apply_eq : r.apply a = b

variable {r r' r'' : Renaming} {a b : Literal}

@[simp] theorem apply_neg (r : Renaming) (a : Literal) : r.apply (-a) = -r.apply a := by
  obtain ⟨x, s⟩ := a
  cases s <;> simp [apply, Neg.neg, Literal.negate]

@[simp] theorem apply_positive (r : Renaming) (x : Nat) : r.apply ⟨x, true⟩ = r.image x := rfl

@[simp] theorem var_apply (r : Renaming) (a : Literal) : (r.apply a).var = (r.image a.var).var := by
  unfold apply
  split <;> rfl

/-- The value of what stands for a literal is the literal's value, read through the renaming. -/
@[simp] theorem eval_apply (r : Renaming) (a : Literal) (v : Valuation) :
    (r.apply a).eval v = a.eval (r.pull v) := by
  unfold apply
  split
  · simp_all [pull, Literal.eval]
  · rw [Literal.eval_neg]
    simp_all [pull, Literal.eval]

theorem Extends.rfl : r.Extends r := ⟨Nat.le_refl _, fun _ _ => Eq.refl _⟩

theorem Extends.trans (h : r.Extends r') (h' : r'.Extends r'') : r.Extends r'' where
  size_le := Nat.le_trans h.size_le h'.size_le
  image_eq x hx := by rw [h'.image_eq x (Nat.lt_of_lt_of_le hx h.size_le), h.image_eq x hx]

theorem extends_extend (r : Renaming) (out : Literal) : r.Extends (r.extend out) where
  size_le := Nat.le_succ _
  image_eq _ hx := Function.update_of_ne (Nat.ne_of_lt hx) _ _

@[simp] theorem extend_image_size (r : Renaming) (out : Literal) :
    (r.extend out).image r.size = out := Function.update_self ..

theorem Extends.apply_eq (h : r.Extends r') (ha : a.var < r.size) : r'.apply a = r.apply a := by
  rw [apply, apply, h.image_eq _ ha]

theorem Extends.pull_eq (h : r.Extends r') (v : Valuation) {x : Nat} (hx : x < r.size) :
    r'.pull v x = r.pull v x := by
  rw [pull, pull, h.image_eq x hx]

theorem Extends.eval_pull (h : r.Extends r') (v : Valuation) (ha : a.var < r.size) :
    a.eval (r'.pull v) = a.eval (r.pull v) := by
  rw [Literal.eval, Literal.eval, h.pull_eq v ha]

theorem Relates.mono (hab : r.Relates a b) (h : r.Extends r') : r'.Relates a b :=
  ⟨Nat.lt_of_lt_of_le hab.lt h.size_le, by rw [h.apply_eq hab.lt, hab.apply_eq]⟩

theorem Relates.neg (hab : r.Relates a b) : r.Relates (-a) (-b) :=
  ⟨hab.lt, by rw [apply_neg, hab.apply_eq]⟩

/-- One more variable changes no value. -/
theorem Relates.eval_extend (hab : r.Relates a b) (out : Literal) (v : Valuation) :
    a.eval ((r.extend out).pull v) = b.eval v := by
  rw [(r.extends_extend out).eval_pull v hab.lt, ← eval_apply, hab.apply_eq]

end Renaming

/-! ## Folding and sharing under a renaming -/

namespace GateOp

/-- A gate folds in the same way with its operands exchanged. -/
theorem fold?_comm (op : GateOp) (a b : Literal) : op.fold? a b = op.fold? b a := by
  have hneg : a = -b ↔ b = -a := Literal.eq_neg_comm
  have htop : Literal.top = -b ↔ b = .bottom := Literal.eq_neg_comm
  cases op <;> simp only [fold?] <;> grind [Literal.neg_top, Literal.neg_bottom]

/-- Where a gate folds, it folds under every renaming that keeps the constants. -/
theorem fold?_apply {op : GateOp} {r : Renaming} (htop : r.image 0 = .top) {a b l : Literal}
    (h : op.fold? a b = some l) : op.fold? (r.apply a) (r.apply b) = some (r.apply l) := by
  have htop : r.apply .top = .top := htop
  have hbottom : r.apply .bottom = .bottom := by rw [← Literal.neg_top, r.apply_neg, htop]
  have hne : ∀ x : Literal, Literal.top = -x ↔ x = .bottom := fun x => Literal.eq_neg_comm
  cases op with
  | and =>
    simp only [fold?] at h ⊢
    split_ifs at h with hfalse hright hleft <;> obtain rfl := Option.some.inj h
    · rcases hfalse with rfl | rfl | rfl <;> simp [hbottom]
    · rcases hright with rfl | rfl <;> grind [Literal.neg_ne]
    · subst hleft
      grind [Literal.neg_top]
  | xor =>
    simp only [fold?] at h ⊢
    split_ifs at h <;> obtain rfl := Option.some.inj h <;> subst_vars <;>
      simp only [Renaming.apply_neg, htop, hbottom] <;>
      grind [Literal.neg_ne, Literal.neg_neg, Literal.neg_top, Literal.neg_bottom]

end GateOp

namespace Circuit

variable {c d : Circuit} {op : GateOp} {a b l : Literal}

/-- What is answered does not depend on the order of the operands. -/
theorem Answers.comm (h : c.Answers op a b l) : c.Answers op b a l := by
  unfold Answers GateKey.ofLiterals at h ⊢
  rwa [op.fold?_comm b a, Literal.sort_comm b a]

/-- An answer in the order of literals is an answer. -/
theorem Answers.of_sort {r : Renaming} (h : c.Answers op (r.apply (Literal.sort a b).1)
    (r.apply (Literal.sort a b).2) l) : c.Answers op (r.apply a) (r.apply b) l := by
  rcases Literal.sort_cases a b with hsort | hsort <;> rw [hsort] at h
  · exact h
  · exact h.comm

theorem Answers.sort {r : Renaming} (h : c.Answers op (r.apply a) (r.apply b) l) :
    c.Answers op (r.apply (Literal.sort a b).1) (r.apply (Literal.sort a b).2) l := by
  rcases Literal.sort_cases a b with hsort | hsort <;> rw [hsort]
  · exact h
  · exact h.comm

/-! ## Reductions -/

/-- The circuit `d` says under a renaming what the circuit `c` says, in no more variables and
clauses. -/
structure Reduction (r : Renaming) (c d : Circuit) (net net' : Netlist)
    (required required' : List Literal) : Prop where
  fits : c.Fits net required
  fits' : d.Fits net' required'
  constProp : c.options.constProp = true → d.options.constProp = true
  gateSharing : c.options.gateSharing = true → d.options.gateSharing = true
  size_eq : r.size = net.length
  constant : r.image 0 = .top
  image_lt : ∀ x < r.size, (r.image x).var < net'.length
  holds : ∀ v, net'.Holds v → net.Holds (r.pull v)
  onto : ∀ y < net'.length, ∃ x < r.size, r.image x = ⟨y, true⟩
  input : ∀ x, net[x]? = some .input →
    (r.image x).sign = true ∧ net'[(r.image x).var]? = some .input
  input_injective : ∀ x y, net[x]? = some .input → net[y]? = some .input →
    r.image x = r.image y → x = y
  shared : ∀ (key : GateKey) (out : Literal), c.gates[key]? = some out →
    d.Answers key.op (r.apply key.left) (r.apply key.right) (r.apply out)
  required_iff : ∀ v, net'.Holds v →
    ((∀ l ∈ required, l.eval (r.pull v) = true) ↔ ∀ l ∈ required', l.eval v = true)
  numVars_le : d.formula.numVars ≤ c.formula.numVars
  clauses_le : d.formula.clauses.size ≤ c.formula.clauses.size

/-- One circuit reduces to another under a renaming. -/
def Reduces (r : Renaming) (c d : Circuit) : Prop :=
  ∃ net net' required required', Reduction r c d net net' required required'

section

variable {r : Renaming} {net net' net'' : Netlist} {required required' : List Literal}
  {a' b' l' : Literal}

theorem Reduction.image_extend (h : Reduction r c d net net' required required') (out : Literal)
    {x : Nat} (hx : x < net.length) : (r.extend out).image x = r.image x :=
  (r.extends_extend out).image_eq x (h.size_eq ▸ hx)

theorem Reduction.image_extend_length (h : Reduction r c d net net' required required')
    (out : Literal) : (r.extend out).image net.length = out := by
  rw [← h.size_eq, Renaming.extend_image_size]

/-- Different inputs keep different literals if the literal of a new input is new. -/
theorem Reduction.extend_input_injective {s : Source} {out : Literal}
    (h : Reduction r c d net net' required required')
    (hnew : s = .input → net'.length ≤ out.var) (x y : Nat)
    (hx : (net ++ [s])[x]? = some .input) (hy : (net ++ [s])[y]? = some .input)
    (heq : (r.extend out).image x = (r.extend out).image y) : x = y := by
  have hold : ∀ x, net[x]? = some .input → (r.extend out).image x = r.image x ∧
      (r.image x).var < net'.length := by
    intro x hx
    have hlt : x < net.length := (List.getElem?_eq_some_iff.1 hx).1
    exact ⟨h.image_extend out hlt, h.image_lt x (h.size_eq ▸ hlt)⟩
  rcases Netlist.getElem?_concat.1 hx with hx | ⟨rfl, hs⟩ <;>
    rcases Netlist.getElem?_concat.1 hy with hy | ⟨rfl, hs'⟩
  · rw [(hold x hx).1, (hold y hy).1] at heq
    exact h.input_injective x y hx hy heq
  · have hle := hnew hs'
    rw [(hold x hx).1, h.image_extend_length] at heq
    have hlt := heq ▸ (hold x hx).2
    omega
  · have hle := hnew hs
    rw [(hold y hy).1, h.image_extend_length] at heq
    have hlt := heq ▸ (hold y hy).2
    omega
  · rfl

/-- An old gate reads old variables, and the literals that stand for them are the same. -/
theorem Reduction.extend_shared {d' : Circuit} (h : Reduction r c d net net' required required')
    (out : Literal) (hanswers : ∀ op a b l, d.Answers op a b l → d'.Answers op a b l)
    (key : GateKey) (x : Literal) (hkey : c.gates[key]? = some x) :
    d'.Answers key.op ((r.extend out).apply key.left) ((r.extend out).apply key.right)
      ((r.extend out).apply x) := by
  have hext := r.extends_extend out
  obtain ⟨-, hgate⟩ := h.fits.gates key x hkey
  have hx : x.var < r.size := h.size_eq ▸ (List.getElem?_eq_some_iff.1 hgate).1
  obtain ⟨hleft, hright⟩ := h.fits.ordered _ _ hgate
  rw [hext.apply_eq (Nat.lt_trans hleft hx), hext.apply_eq (Nat.lt_trans hright hx),
    hext.apply_eq hx]
  exact hanswers _ _ _ _ (h.shared key x hkey)

/-- One more variable of the plain circuit, and the literal that stands for it, which is one of the
optimised circuit's literals or its next variable. -/
theorem Reduction.extend {c' d' : Circuit} {s : Source} {out : Literal}
    (h : Reduction r c d net net' required required')
    (hfits : c'.Fits (net ++ [s]) required) (hfits' : d'.Fits net'' required')
    (hnet : net' <+: net'') (hoptions : c'.options = c.options)
    (hoptions' : d'.options = d.options) (hout : out.var < net''.length)
    (hvalue : ∀ v, net''.Holds v → out.eval v = s.value net.length ((r.extend out).pull v))
    (honto : ∀ y < net''.length, net'.length ≤ y → out = ⟨y, true⟩)
    (hinput : s = .input → out.sign = true ∧ net''[out.var]? = some .input ∧
      net'.length ≤ out.var)
    (hanswers : ∀ op a b l, d.Answers op a b l → d'.Answers op a b l)
    (hshared : ∀ (key : GateKey) (x : Literal), c'.gates[key]? = some x →
      c.gates[key]? = some x ∨ d'.Answers key.op ((r.extend out).apply key.left)
        ((r.extend out).apply key.right) ((r.extend out).apply x))
    (hvars : d'.formula.numVars ≤ c'.formula.numVars)
    (hclauses : d'.formula.clauses.size ≤ c'.formula.clauses.size) :
    Reduction (r.extend out) c' d' (net ++ [s]) net'' required required' := by
  have hext := r.extends_extend out
  have hlength : (net ++ [s]).length = net.length + 1 := by simp
  exact {
    fits := hfits
    fits' := hfits'
    constProp := by rw [hoptions, hoptions']; exact h.constProp
    gateSharing := by rw [hoptions, hoptions']; exact h.gateSharing
    size_eq := by rw [hlength, ← h.size_eq]; rfl
    constant := by rw [h.image_extend out h.fits.length_pos, h.constant]
    image_lt := fun x hx => by
      by_cases hlt : x < r.size
      · rw [hext.image_eq x hlt]
        exact Nat.lt_of_lt_of_le (h.image_lt x hlt) hnet.length_le
      · obtain rfl : x = r.size := Nat.le_antisymm (Nat.lt_succ_iff.1 hx) (Nat.not_lt.1 hlt)
        rwa [Renaming.extend_image_size]
    holds := fun v hv => by
      have hold := h.holds v (hv.of_isPrefix hnet)
      refine Netlist.holds_concat.2 ⟨hold.congr h.fits.ordered fun x hx => ?_, ?_⟩
      · exact (hext.pull_eq v (by rwa [h.size_eq])).symm
      · rw [← hvalue v hv, Renaming.pull, h.image_extend_length]
    onto := fun y hy => by
      by_cases hlt : y < net'.length
      · obtain ⟨x, hx, himage⟩ := h.onto y hlt
        exact ⟨x, Nat.lt_succ_of_lt hx, by rw [hext.image_eq x hx, himage]⟩
      · refine ⟨r.size, Nat.lt_succ_self _, ?_⟩
        rw [Renaming.extend_image_size, honto y hy (Nat.not_lt.1 hlt)]
    input := fun x hx => by
      rcases Netlist.getElem?_concat.1 hx with hx | ⟨rfl, hs⟩
      · rw [h.image_extend out (List.getElem?_eq_some_iff.1 hx).1]
        obtain ⟨hsign, hold⟩ := h.input x hx
        exact ⟨hsign, Netlist.getElem?_of_isPrefix hnet hold⟩
      · rw [h.image_extend_length]
        exact ⟨(hinput hs).1, (hinput hs).2.1⟩
    input_injective := h.extend_input_injective fun hs => (hinput hs).2.2
    shared := fun key x hkey =>
      (hshared key x hkey).elim (h.extend_shared out hanswers key x) id
    required_iff := fun v hv => by
      rw [← h.required_iff v (hv.of_isPrefix hnet)]
      refine forall₂_congr fun l hl => ?_
      rw [hext.eval_pull v (by rw [h.size_eq]; exact h.fits.required_lt l hl)]
    numVars_le := hvars
    clauses_le := hclauses }

/-- The literals that stand for literals have variables of the optimised circuit. -/
theorem Reduction.var_lt (h : Reduction r c d net net' required required')
    (ha : r.Relates a a') : a.var < net.length ∧ a'.var < net'.length := by
  refine ⟨h.size_eq ▸ ha.lt, ?_⟩
  rw [← ha.apply_eq, Renaming.var_apply]
  exact h.image_lt _ ha.lt

/-- What the plain circuit answers, the optimised circuit answers with the literal that stands for
it. -/
theorem Reduction.answers (h : Reduction r c d net net' required required')
    (hl : c.Answers op a b l) : d.Answers op (r.apply a) (r.apply b) (r.apply l) := by
  rcases hl with ⟨hprop, hfold⟩ | ⟨-, -, hshared⟩
  · exact .inl ⟨h.constProp hprop, GateOp.fold?_apply h.constant hfold⟩
  · exact (h.shared _ _ hshared).of_sort

/-- The gate that stands for a gate has its value. -/
theorem value_gate (ha : r.Relates a a') (hb : r.Relates b b') (x : Nat) (out : Literal)
    (v : Valuation) :
    (Source.gate (GateKey.ofLiterals op a b)).value x ((r.extend out).pull v) =
      op.eval (a'.eval v) (b'.eval v) := by
  rw [Source.value, eval_ofLiterals, ha.eval_extend, hb.eval_extend]

/-- A gate that is new to the plain circuit is there to be shared, or was there before. -/
theorem Reduction.shared_defineGate {d' : Circuit} {out : Literal}
    (h : Reduction r c d net net' required required') (ha : r.Relates a a') (hb : r.Relates b b')
    (hout : c.options.gateSharing = true → d'.Answers op a' b' out) (key : GateKey) (x : Literal)
    (hkey : (Circuit.defineGate (GateKey.ofLiterals op a b) c).2.gates[key]? = some x) :
    c.gates[key]? = some x ∨ d'.Answers key.op ((r.extend out).apply key.left)
      ((r.extend out).apply key.right) ((r.extend out).apply x) := by
  have hext := r.extends_extend out
  simp only [Circuit.defineGate] at hkey
  split at hkey
  · rename_i hsharing
    rw [Std.TreeMap.getElem?_insert] at hkey
    split at hkey
    · rename_i heq
      obtain rfl := Std.LawfulEqCmp.eq_of_compare heq
      obtain rfl := Option.some.inj hkey
      refine .inr (Answers.sort ?_)
      rw [hext.apply_eq ha.lt, hext.apply_eq hb.lt, ha.apply_eq, hb.apply_eq,
        Renaming.apply_positive, h.fits.numVars_eq, ← h.size_eq, Renaming.extend_image_size]
      exact hout hsharing
    · exact .inl hkey
  · exact .inl hkey

/-- A gate that only the plain circuit defines. An earlier literal stands for its variable. -/
theorem Reduction.absorbGate (h : Reduction r c d net net' required required')
    (ha : r.Relates a a') (hb : r.Relates b b') (hlacks : c.Lacks op a b)
    (hl' : d.Answers op a' b' l') : Reduces (r.extend l') (gate op a b c).2 d := by
  obtain ⟨hvar, hvar'⟩ := h.var_lt ha
  obtain ⟨hvarb, hvarb'⟩ := h.var_lt hb
  have hfits := (hlacks.fits h.fits hvar hvarb).2
  have hdenotes := hl'.denotes h.fits' hvar' hvarb'
  have hnumVars := h.numVars_le
  have hclauses := h.clauses_le
  rw [hlacks.gate_eq] at hfits ⊢
  refine ⟨_, _, _, _, h.extend hfits h.fits' List.prefix_rfl rfl rfl hdenotes.lt (fun v hv => ?_)
    (fun y hy hle => absurd hy (Nat.not_lt.2 hle)) (fun hs => by cases hs) (fun _ _ _ _ h => h)
    (h.shared_defineGate ha hb fun _ => hl') ?_ ?_⟩
  · rw [value_gate ha hb, hdenotes.eval_eq v hv]
  · simp [Circuit.defineGate]; omega
  · simp [Circuit.defineGate]; omega

/-- A gate that both circuits define. The new variables stand for each other. -/
theorem Reduction.defineGate (h : Reduction r c d net net' required required')
    (ha : r.Relates a a') (hb : r.Relates b b') (hlacks : c.Lacks op a b)
    (hlacks' : d.Lacks op a' b') :
    Reduces (r.extend ⟨net'.length, true⟩) (gate op a b c).2 (gate op a' b' d).2 := by
  obtain ⟨hvar, hvar'⟩ := h.var_lt ha
  obtain ⟨hvarb, hvarb'⟩ := h.var_lt hb
  have hfits := (hlacks.fits h.fits hvar hvarb).2
  have hfits' := (hlacks'.fits h.fits' hvar' hvarb').2
  have hnumVars := h.numVars_le
  have hclauses := h.clauses_le
  have hanswers := hlacks'.answers_defineGate
  rw [h.fits'.numVars_eq] at hanswers
  rw [hlacks.gate_eq] at hfits ⊢
  rw [hlacks'.gate_eq] at hfits' ⊢
  refine ⟨_, _, _, _, h.extend hfits hfits' (List.prefix_append ..) rfl rfl (by simp)
    (fun v hv => ?_) (fun y hy hle => ?_) (fun hs => by cases hs)
    (fun _ _ _ _ h => h.mono hlacks'.kept)
    (h.shared_defineGate ha hb fun hsharing => hanswers (h.gateSharing hsharing)) ?_ ?_⟩
  · rw [value_gate ha hb, Literal.eval_positive, (Netlist.holds_concat.1 hv).2, Source.value,
      eval_ofLiterals]
  · obtain rfl : y = net'.length := by simp at hy; omega
    rfl
  · simp only [Circuit.defineGate, Cnf.numVars_addClauses, Cnf.numVars_newVar]
    omega
  · simp only [Circuit.defineGate, Cnf.size_clauses_addClauses, Cnf.clauses_newVar]
    rw [GateOp.length_define _ ⟨d.formula.numVars, true⟩ _ _ ⟨c.formula.numVars, true⟩
      (GateKey.ofLiterals op a b).left (GateKey.ofLiterals op a b).right]
    exact Nat.add_le_add_right hclauses _

end

end Circuit

/-! ## Computations that keep a reduction -/

namespace Build

variable {α β α' β' : Type} {r : Renaming}

/-- Two computations on two circuits, one of which reduces to the other, keep this under a renaming
that only gets longer, and their results are related. -/
def Mirrors (r : Renaming) (x : Build α) (y : Build β) (post : Renaming → α → β → Prop) : Prop :=
  ∀ c d, Circuit.Reduces r c d → ∃ r', r.Extends r' ∧
    Circuit.Reduces r' (x c).2 (y d).2 ∧ post r' (x c).1 (y d).1

theorem Mirrors.pure {a : α} {b : β} {post : Renaming → α → β → Prop} (h : post r a b) :
    Mirrors r (Pure.pure a) (Pure.pure b) post := fun _ _ hcd => ⟨r, .rfl, hcd, h⟩

theorem Mirrors.bind {x : Build α} {y : Build β} {f : α → Build α'} {g : β → Build β'}
    {mid : Renaming → α → β → Prop} {post : Renaming → α' → β' → Prop} (hxy : Mirrors r x y mid)
    (hfg : ∀ r' a b, r.Extends r' → mid r' a b → Mirrors r' (f a) (g b) post) :
    Mirrors r (x >>= f) (y >>= g) post := by
  intro c d hcd
  obtain ⟨r₁, hext₁, hcd₁, hmid⟩ := hxy c d hcd
  obtain ⟨r₂, hext₂, hcd₂, hpost⟩ := hfg r₁ _ _ hext₁ hmid _ _ hcd₁
  exact ⟨r₂, hext₁.trans hext₂, hcd₂, hpost⟩

theorem Mirrors.map {x : Build α} {y : Build β} {f : α → α'} {g : β → β'}
    {mid : Renaming → α → β → Prop} {post : Renaming → α' → β' → Prop} (hxy : Mirrors r x y mid)
    (hfg : ∀ r' a b, mid r' a b → post r' (f a) (g b)) :
    Mirrors r (f <$> x) (g <$> y) post := by
  intro c d hcd
  obtain ⟨r', hext, hcd', hmid⟩ := hxy c d hcd
  exact ⟨r', hext, hcd', hfg r' _ _ hmid⟩

end Build

namespace Circuit

open Build (Mirrors)

variable {r : Renaming} {a b a' b' : Literal}

/-- A gate, whatever becomes of it in either circuit. -/
theorem mirrors_gate (op : GateOp) (ha : r.Relates a a') (hb : r.Relates b b') :
    Mirrors r (gate op a b) (gate op a' b') Renaming.Relates := by
  rintro c d ⟨net, net', required, required', h⟩
  obtain ⟨hvar, hvar'⟩ := h.var_lt ha
  obtain ⟨hvarb, hvarb'⟩ := h.var_lt hb
  rcases answers_or_lacks c op a b with ⟨l, hl⟩ | hlacks
  · -- both circuits stay as they are
    have hl' := h.answers hl
    rw [ha.apply_eq, hb.apply_eq] at hl'
    rw [hl.gate_eq, hl'.gate_eq]
    exact ⟨r, .rfl, ⟨_, _, _, _, h⟩, h.size_eq ▸ (hl.denotes h.fits hvar hvarb).lt, rfl⟩
  · have hout := (hlacks.fits h.fits hvar hvarb).1
    have hrelates : ∀ out, (r.extend out).Relates (gate op a b c).1 out := by
      intro out
      rw [hout, ← h.size_eq]
      exact ⟨Nat.lt_succ_self _, Renaming.extend_image_size r out⟩
    rcases answers_or_lacks d op a' b' with ⟨l', hl'⟩ | hlacks'
    · refine ⟨r.extend l', r.extends_extend l', ?_, ?_⟩ <;> rw [hl'.gate_eq]
      · exact h.absorbGate ha hb hlacks hl'
      · exact hrelates l'
    · refine ⟨r.extend ⟨net'.length, true⟩, r.extends_extend _, ?_, ?_⟩
      · exact h.defineGate ha hb hlacks hlacks'
      · rw [(hlacks'.fits h.fits' hvar' hvarb').1]
        exact hrelates _

end Circuit

end BitUnroll
