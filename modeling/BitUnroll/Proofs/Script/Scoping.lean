import BitUnroll.Proofs.Script.Conditions
import BitUnroll.Proofs.Script.Elaboration

/-!
# Scopes of scripts

An expression that a command reads mentions variables of the selected module only, with the types
that they were declared with, and its numbers and truth values have no operands. Modules keep the
variables that they have. So the conditions of a module are over its own variables, and so are the
constraints and the conversions of a script if all of them were read while the module was selected.

## Main definitions

* `Expr.Over`: an expression over some variables.
* `Script.ListedIn`: the constraints and conversions of a script are over a module's variables.

## Main statements

* `Scope.over_expr`: the expression that a tree is.
* `Script.over_of_parse`: the expressions of a whole script.
-/

namespace BitUnroll

/-! ## Expressions over variables -/

/-- A node whose name is declared with its type, if it is a variable, and that has no operands if it
is a number or a truth value. -/
def Kind.Over (vars : List (String × Ty)) (kind : Kind) (ty : Ty) (es : List Expr) : Prop :=
  match kind with
  | .symbol name | .nextSymbol name => (name, ty) ∈ vars
  | .constant _ | .truth _ => es = []
  | _ => True

/-- All variables of an expression are declared with their types, and its leaves have no
operands. -/
inductive Expr.Over (vars : List (String × Ty)) : Expr → Prop
  | node {kind : Kind} {ty : Ty} {es : List Expr} (declared : kind.Over vars ty es)
      (operands : ∀ e ∈ es, Over vars e) : Over vars (.node kind ty es)

namespace Expr

variable {vars vars' : List (String × Ty)} {e : Expr}

theorem Over.mono (h : e.Over vars) (hvars : vars ⊆ vars') : e.Over vars' := by
  induction h with
  | @node kind ty es declared operands ih =>
    refine .node ?_ ih
    cases kind with
    | symbol | nextSymbol => exact hvars declared
    | constant | truth => exact declared
    | nil | not | connective | implies | equality | ite | complement | negate | binary | relation
    | extractBit | extractBits | concat | cast | temporal => trivial

theorem Over.operands (h : e.Over vars) : ∀ x ∈ e.operands, x.Over vars := by
  cases h with
  | node declared operands => exact operands

theorem over_truth (value : Bool) : (truth value).Over vars := .node rfl (by simp)

theorem over_constant (n : Int) (ty : Ty) : (constant n ty).Over vars := .node rfl (by simp)

theorem over_absent : absent.Over vars := .node trivial (by simp)

theorem over_conjunction {es : List Expr} (h : ∀ e ∈ es, e.Over vars) :
    (conjunction es).Over vars := .node trivial h

/-- A variable of an expression is declared with its type. -/
theorem Over.mem_of_identifier? {name : String} (h : e.Over vars)
    (he : e.identifier? = some name) : (name, e.ty) ∈ vars := by
  cases h with
  | @node kind ty es declared operands =>
    cases kind with
    | symbol | nextSymbol =>
      obtain rfl := Option.some.inj he
      exact declared
    | constant | truth | nil | not | connective | implies | equality | ite | complement | negate
    | binary | relation | extractBit | extractBits | concat | cast | temporal => cases he

end Expr

/-! ## Elaboration -/

namespace Scope

variable {scope : Scope} {e : Expr}

/-- What is built from the variables of a scope is over them. -/
theorem Builds.over (h : scope.Builds e) : e.Over scope.system.vars := by
  induction h with
  | truth value => exact Expr.over_truth value
  | number n | retyped n => exact Expr.over_constant n _
  | symbol hvar => exact .node hvar (by simp)
  | next _ hname ih => exact .node (ih.mem_of_identifier? hname) (by simp)
  | absent => exact Expr.over_absent
  | @node kind _ _ hkind _ _ _ ih =>
    refine .node ?_ ih
    cases kind with
    | symbol | nextSymbol | constant | truth => cases hkind
    | nil | not | connective | implies | equality | ite | complement | negate | binary | relation
    | extractBit | extractBits | concat | cast | temporal => trivial

/-- The expression that a tree is, is over the variables of the scope. -/
theorem over_expr (scope : Scope) (tree : SExpr) (e : Expr) (h : scope.expr tree = .ok e) :
    e.Over scope.system.vars :=
  (builds_expr scope tree e h).over

theorem over_boolExpr {tree : SExpr} (h : scope.boolExpr tree = .ok e) :
    e.Over scope.system.vars :=
  (builds_boolExpr h).over

end Scope

namespace Script

variable {s s' : Script} {name : CommandName} {args : List SExpr} {tree : SExpr}

/-! ## What commands keep -/

/-- The constraints and conversions of a script are over the variables of a module. -/
structure ListedIn (s : Script) (module : String) : Prop where
  constraints : ∀ c ∈ s.constraints, c.expr.Over (s.systemOf module).vars
  conversions : ∀ c ∈ s.conversions, c.expr.Over (s.systemOf module).vars

/-- The conditions of every module are over its own variables. -/
def Closed (s : Script) : Prop := ∀ module,
  (s.systemOf module).init.Over (s.systemOf module).vars ∧
    (s.systemOf module).trans.Over (s.systemOf module).vars

theorem over_conjoin {vars : List (String × Ty)} {e added : Expr} (he : e.Over vars)
    (hadded : added.Over vars) : (conjoin e added).Over vars :=
  conjoin_induction (fun _ => Expr.over_conjunction) he.operands he hadded

theorem systemOf_modified {ts : TransitionSystem} (hts : s.system = .ok ts)
    (f : TransitionSystem → TransitionSystem) (module : String) :
    (s.modified f).systemOf module =
      if s.selected = module then f (s.systemOf module) else s.systemOf module :=
  systemOf_of_modify hts rfl module

/-- A module keeps its variables. -/
theorem Effect.vars_subset (h : s.Effect name args s') (module : String) :
    (s.systemOf module).vars ⊆ (s'.systemOf module).vars := by
  have hmodified : ∀ {ts : TransitionSystem} (_ : s.system = .ok ts) {f}
      (_ : ∀ ts : TransitionSystem, ts.vars ⊆ (f ts).vars),
      (s.systemOf module).vars ⊆ ((s.modified f).systemOf module).vars := by
    intro ts hts f hf
    rw [systemOf_modified hts]
    split
    · exact hf _
    · exact List.Subset.refl _
  cases h with
  | module other => rw [systemOf_selectModule]; exact List.Subset.refl _
  | typedef | constraint | convert => exact List.Subset.refl _
  | declareVar hts => exact hmodified hts fun ts => List.subset_append_left ..
  | init hts | trans hts => exact hmodified hts fun ts => List.Subset.refl _

/-- Conditions are added over the variables of the selected module. -/
theorem Effect.closed (h : s.Effect name args s') (hs : s.Closed) : s'.Closed := by
  have hmodified : ∀ {ts : TransitionSystem} (_ : s.system = .ok ts) {f}
      (_ : (f ts).init.Over (f ts).vars ∧ (f ts).trans.Over (f ts).vars),
      (s.modified f).Closed := by
    intro ts hts f hf module
    rw [systemOf_modified hts]
    split
    · rename_i hmodule
      rw [← hmodule, systemOf_selected hts]
      exact hf
    · exact hs module
  have hselected : ∀ {ts : TransitionSystem}, s.system = .ok ts →
      ts.init.Over ts.vars ∧ ts.trans.Over ts.vars := by
    intro ts hts
    rw [← systemOf_selected hts]
    exact hs s.selected
  cases h with
  | module other =>
    intro module
    rw [systemOf_selectModule]
    exact hs module
  | typedef | constraint | convert => exact hs
  | declareVar hts =>
    obtain ⟨hinit, htrans⟩ := hselected hts
    exact hmodified hts
      ⟨hinit.mono (List.subset_append_left ..), htrans.mono (List.subset_append_left ..)⟩
  | init hts he =>
    obtain ⟨hinit, htrans⟩ := hselected hts
    exact hmodified hts ⟨over_conjoin hinit (Scope.over_boolExpr he), htrans⟩
  | trans hts he =>
    obtain ⟨hinit, htrans⟩ := hselected hts
    exact hmodified hts ⟨hinit, over_conjoin htrans (Scope.over_boolExpr he)⟩

/-- What is listed while a module is selected is over its variables. -/
theorem Effect.listedIn {module : String} (h : s.Effect name args s') (hs : s.ListedIn module)
    (hmodule : name = .constraint ∨ name = .convert → s.selected = module) :
    s'.ListedIn module := by
  have hsubset := h.vars_subset module
  have hover : ∀ {ts : TransitionSystem} {e : Expr}, s.system = .ok ts → s.selected = module →
      e.Over ts.vars → e.Over (s.systemOf module).vars := by
    intro ts e hts hselected he
    rw [← hselected, systemOf_selected hts]
    exact he
  have hkept : (∀ c ∈ s.constraints, c.expr.Over (s'.systemOf module).vars) ∧
      ∀ c ∈ s.conversions, c.expr.Over (s'.systemOf module).vars :=
    ⟨fun c hc => (hs.constraints c hc).mono hsubset, fun c hc => (hs.conversions c hc).mono hsubset⟩
  cases h with
  | module | typedef | declareVar | init | trans => exact ⟨hkept.1, hkept.2⟩
  | constraint hts he =>
    refine ⟨fun c hc => ?_, hkept.2⟩
    rcases Array.mem_push.1 hc with hc | rfl
    · exact hkept.1 c hc
    · exact (hover hts (hmodule (.inl rfl)) (Scope.over_boolExpr he)).mono hsubset
  | convert hts he =>
    refine ⟨hkept.1, fun c hc => ?_⟩
    rcases Array.mem_push.1 hc with hc | rfl
    · exact hkept.2 c hc
    · exact (hover hts (hmodule (.inr rfl)) (Scope.over_expr _ _ _ he)).mono hsubset

/-! ## A whole run -/

/-- All constraints and conversions of some commands were listed while a module was selected. -/
def ListsIn (module : String) (commands : List (Script × SExpr)) : Prop :=
  ∀ command ∈ commands, IsCommand .constraint command.2 ∨ IsCommand .convert command.2 →
    command.1.selected = module

instance (module : String) (commands : List (Script × SExpr)) :
    Decidable (ListsIn module commands) :=
  inferInstanceAs (Decidable (∀ command ∈ commands, _ → _))

theorem runAll_cons {trees : List SExpr} (h : s.runAll (tree :: trees) = .ok s') :
    ∃ s₁, s.run tree = .ok s₁ ∧ s₁.runAll trees = .ok s' ∧
      s.history (tree :: trees) = (s, tree) :: s₁.history trees := by
  obtain ⟨s₁, hrun, h⟩ := runAll_cons_eq_ok.1 h
  refine ⟨s₁, hrun, h, ?_⟩
  rw [history, hrun]

theorem listedIn_of_runAll {trees : List SExpr} {module : String} (h : s.runAll trees = .ok s')
    (hs : s.ListedIn module) (hlists : ListsIn module (s.history trees)) : s'.ListedIn module := by
  induction trees generalizing s with
  | nil =>
    cases h
    exact hs
  | cons tree trees ih =>
    obtain ⟨s₁, hrun, hrest, hhistory⟩ := runAll_cons h
    obtain ⟨head, name, args, rfl, hname, heffect⟩ := run_eq_ok_iff.1 hrun
    rw [hhistory] at hlists
    obtain ⟨hfirst, hlists⟩ := List.forall_mem_cons.1 hlists
    refine ih hrest (heffect.listedIn hs fun hlisted => hfirst ?_) hlists
    rcases hlisted with rfl | rfl
    · exact .inl hname
    · exact .inr hname

/-- The conditions of a script's modules are over their own variables, and so are its constraints
and conversions if they were listed while the selected module was selected. -/
theorem over_of_parse {text : String} (h : parse text = .ok s) {ts : TransitionSystem}
    (hts : s.system = .ok ts) :
    ts.init.Over ts.vars ∧ ts.trans.Over ts.vars ∧
      (ListsIn s.selected (commands text) →
        (∀ c ∈ s.constraints, c.expr.Over ts.vars) ∧ ∀ c ∈ s.conversions, c.expr.Over ts.vars) := by
  have hinitial : initial.Closed := by
    intro module
    rw [systemOf]
    simp only [initial, Design.get?_insert, Design.get?_empty]
    split <;> exact ⟨Expr.over_truth true, Expr.over_truth true⟩
  unfold parse at h
  split at h
  · rename_i trees htrees
    have hclosed := runAll_induction Effect.closed h hinitial s.selected
    rw [systemOf_selected hts] at hclosed
    refine ⟨hclosed.1, hclosed.2, fun hlists => ?_⟩
    rw [commands, htrees] at hlists
    have hlisted := listedIn_of_runAll h ⟨by simp [initial], by simp [initial]⟩ hlists
    rw [← systemOf_selected hts]
    exact ⟨hlisted.constraints, hlisted.conversions⟩
  · cases h

end Script

end BitUnroll
