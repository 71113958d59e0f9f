import BitUnroll.Proofs.Script.Commands

/-!
# Elaborated expressions

The expressions that trees are read as are built in few ways from the variables of a scope. What is
to be known of all of them is proved by induction over `Scope.Builds`, without another look at the
operators.

## Main definitions

* `Scope.Builds`: how expressions of a scope are built.

## Main statements

* `Scope.builds_expr`, `Scope.builds_boolExpr`: an expression that is read is built in this way.
* `Script.conjoin_induction`: what is kept when conditions grow.
-/

namespace BitUnroll

theorem TransitionSystem.mem_of_var? {ts : TransitionSystem} {name : String} {ty : Ty}
    (h : ts.var? name = some ty) : (name, ty) ∈ ts.vars := by
  obtain ⟨⟨other, ty'⟩, hfind, rfl⟩ := Option.map_eq_some_iff.1 h
  obtain rfl : other = name := by simpa using List.find?_some hfind
  exact List.mem_of_find?_eq_some hfind

namespace Scope

/-- How expressions of a scope are built: from truth values, plain numbers and declared variables,
by operators. A number may take the type of an expression beside it, and the type of an operator's
result is Boolean, unsigned, or the type of an operand. Operators have the operands that they
want. -/
inductive Builds (scope : Scope) : Expr → Prop
  | truth (value : Bool) : Builds scope (.truth value)
  | number (n : Int) : Builds scope (.constant n .integer)
  | retyped (n : Int) {other : Expr} (hother : Builds scope other) :
    Builds scope (.constant n other.ty)
  | symbol {name : String} {ty : Ty} (hvar : (name, ty) ∈ scope.system.vars) :
    Builds scope (.symbol name ty)
  | next {a : Expr} {name : String} (ha : Builds scope a) (hname : a.identifier? = some name) :
    Builds scope (.nextSymbol name a.ty)
  | absent : Builds scope .absent
  | node {kind : Kind} {ty : Ty} {es : List Expr} (hkind : kind.isLeaf = false)
    (hty : ty = .bool ∨ (∃ width, ty = .unsigned width) ∨ ∃ e ∈ es, ty = e.ty)
    (hes : ∀ e ∈ es, Builds scope e) (hshape : kind.Shapes ty es) :
    Builds scope (.node kind ty es)

variable {scope : Scope} {e a b c : Expr} {head : String} {es : List Expr} {kind : Kind}

/-- An operator with a truth value. -/
theorem Builds.logical (hkind : kind.isLeaf = false) (hes : ∀ e ∈ es, scope.Builds e)
    (hshape : kind.Shapes .bool es) : scope.Builds (.node kind .bool es) :=
  .node hkind (.inl rfl) hes hshape

/-- An operator with a result of its operand's type. -/
theorem Builds.unary (hkind : kind.isLeaf = false) (ha : scope.Builds a)
    (hshape : kind.Shapes a.ty [a]) : scope.Builds (.node kind a.ty [a]) :=
  .node hkind (.inr (.inr ⟨a, by simp, rfl⟩)) (by simp [ha]) hshape

theorem Builds.retype (ha : scope.Builds a) (hb : scope.Builds b) :
    scope.Builds (scope.retype a b) := by
  unfold Scope.retype
  split
  · split
    · exact .retyped _ hb
    · exact ha
  · exact ha

/-- Both of two expressions beside each other. -/
theorem Builds.unify (ha : scope.Builds a) (hb : scope.Builds b) :
    scope.Builds (scope.retype a b) ∧ scope.Builds (scope.retype b (scope.retype a b)) :=
  ⟨ha.retype hb, hb.retype (ha.retype hb)⟩

theorem builds_leaf {name : String} (h : scope.leaf name = .ok e) : scope.Builds e := by
  unfold leaf at h
  split at h
  · cases h
    exact .truth true
  split at h
  · cases h
    exact .truth false
  split at h
  · cases h
    exact .number _
  split at h
  · cases h
    exact .symbol (TransitionSystem.mem_of_var? ‹_›)
  · cases h

/-- The operators on two truth values are no leaves and have two operands. -/
theorem shapes_of_binaryTruth? (h : binaryTruth? head = some kind) (a b : Expr) :
    kind.isLeaf = false ∧ kind.Shapes .bool [a, b] := by
  unfold binaryTruth? at h
  split at h <;> cases h
  · exact ⟨rfl, a, b, rfl⟩
  · exact ⟨rfl, trivial⟩
  · exact ⟨rfl, trivial⟩
  · exact ⟨rfl, trivial⟩

theorem builds_next (h : next a = .ok e) (ha : scope.Builds a) : scope.Builds e := by
  unfold next at h
  split at h
  · cases h
    exact .next ha ‹_›
  · cases h

theorem builds_extract (h : extract a b c = .ok e) (ha : scope.Builds a) (hb : scope.Builds b)
    (hc : scope.Builds c) : scope.Builds e := by
  obtain ⟨high, -, h⟩ := Elab.bind_eq_ok.1 h
  obtain ⟨low, -, h⟩ := Elab.bind_eq_ok.1 h
  dsimp only at h
  split at h
  · cases h
  split at h
  · cases h
  split at h
  · cases h
  · cases h
    exact .node rfl (.inr (.inl ⟨_, rfl⟩)) (by simp [ha, hb, hc]) ⟨a, b, c, rfl⟩

theorem builds_unary (h : unary head a = .ok e) (ha : scope.Builds a) : scope.Builds e := by
  unfold unary at h
  split at h
  · exact builds_next h ha
  · cases h
    exact .logical rfl (by simp [ha]) ⟨a, rfl⟩
  · cases h
    exact .unary rfl ha ⟨a, rfl, rfl⟩
  · cases h
    exact .unary rfl ha ⟨a, rfl, rfl⟩
  · cases h

theorem builds_binary (h : scope.binary head a b = .ok e) (ha : scope.Builds a)
    (hb : scope.Builds b) : scope.Builds e := by
  obtain ⟨hleft, hright⟩ := ha.unify hb
  unfold binary at h
  split at h
  · cases h
    exact .node rfl (.inr (.inr ⟨_, by simp, rfl⟩)) (by simp [hleft, hright]) ⟨_, _, rfl⟩
  · cases h
    exact .logical rfl (by simp [hleft, hright]) ⟨_, _, rfl⟩
  · rename_i kind hkind _ _
    cases h
    obtain ⟨hleaf, hshape⟩ := shapes_of_binaryTruth? hkind a b
    exact .logical hleaf (by simp [ha, hb]) hshape
  · split at h
    · cases h
      exact .logical rfl (by simp [hleft, hright]) ⟨_, _, rfl⟩
    · cases h
      exact .logical rfl (by simp [hleft, hright]) ⟨_, _, rfl⟩
    · cases h
      exact .logical rfl (by simp [ha, hb]) ⟨a, b, rfl⟩
    · cases h
      exact .logical rfl (by simp [ha, hb, Builds.absent]) trivial
    · cases h

theorem builds_ternary (h : scope.ternary head a b c = .ok e) (ha : scope.Builds a)
    (hb : scope.Builds b) (hc : scope.Builds c) : scope.Builds e := by
  obtain ⟨hleft, hright⟩ := hb.unify hc
  unfold ternary at h
  split at h
  · cases h
    exact .node rfl (.inr (.inr ⟨_, by simp, rfl⟩)) (by simp [ha, hleft, hright])
      ⟨_, _, _, rfl, rfl⟩
  · exact builds_extract h ha hb hc
  · cases h
    exact .logical rfl (by simp [ha, hb, hc]) trivial
  · cases h

theorem builds_operator (h : scope.operator head es = .ok e) (hes : ∀ x ∈ es, scope.Builds x) :
    scope.Builds e := by
  unfold operator at h
  split at h
  · cases h
    exact .logical rfl hes trivial
  · cases h
    exact .logical rfl hes trivial
  · cases h
    exact .logical rfl hes trivial
  · cases h
    exact .node rfl (.inr (.inl ⟨_, rfl⟩)) hes trivial
  · exact builds_unary h (hes _ (by simp))
  · exact builds_binary h (hes _ (by simp)) (hes _ (by simp))
  · exact builds_ternary h (hes _ (by simp)) (hes _ (by simp)) (hes _ (by simp))
  · cases h

mutual

/-- The expression that a tree is, is built from the variables of the scope. -/
theorem builds_expr (scope : Scope) : ∀ (tree : SExpr) (e : Expr), scope.expr tree = .ok e →
    scope.Builds e
  | .atom _, _, h => builds_leaf h
  | .list [], _, h => nomatch h
  | .list (_ :: args), _, h => by
    obtain ⟨name, -, h⟩ := Elab.bind_eq_ok.1 h
    obtain ⟨ops, hops, h⟩ := Elab.bind_eq_ok.1 h
    exact builds_operator h (builds_exprs scope args ops hops)

theorem builds_exprs (scope : Scope) : ∀ (trees : List SExpr) (es : List Expr),
    scope.exprs trees = .ok es → ∀ e ∈ es, scope.Builds e
  | [], _, h => by
    cases h
    simp
  | tree :: trees, _, h => by
    obtain ⟨e, he, h⟩ := Elab.bind_eq_ok.1 h
    obtain ⟨es, hes, h⟩ := Elab.bind_eq_ok.1 h
    cases h
    exact List.forall_mem_cons.2 ⟨builds_expr scope tree e he, builds_exprs scope trees es hes⟩

end

theorem builds_boolExpr {tree : SExpr} (h : scope.boolExpr tree = .ok e) : scope.Builds e := by
  obtain ⟨x, hx, h⟩ := Elab.bind_eq_ok.1 h
  split at h
  · cases h
    exact builds_expr scope tree e hx
  · cases h

end Scope

/-- What holds of conjunctions whenever it holds of their operands is kept when conditions grow. -/
theorem Script.conjoin_induction {Q : Expr → Prop} {e added : Expr}
    (hconjunction : ∀ es, (∀ x ∈ es, Q x) → Q (.conjunction es)) (hops : ∀ x ∈ e.operands, Q x)
    (he : Q e) (hadded : Q added) : Q (conjoin e added) := by
  unfold conjoin
  split
  · exact hadded
  · refine hconjunction _ fun x hx => ?_
    rcases List.mem_append.1 hx with hx | hx
    · exact hops x hx
    · exact List.mem_singleton.1 hx ▸ hadded
  · exact hconjunction _ (by simp [he, hadded])

end BitUnroll
